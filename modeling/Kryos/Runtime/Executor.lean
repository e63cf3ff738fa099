import Kryos.Lib.Interleaving
import Mathlib.Data.Set.Card
import Mathlib.Data.List.Count
import Mathlib.Order.Interval.Finset.Nat

/-!
# The cooperative executor

Every task of the async runtime runs on a thread of its own, but only the one that holds the baton
makes progress. The scheduler grants the baton to the task at the front of `ready`; a task hands it
back by yielding (it re-queues itself), by going away for a blocking operation (it re-queues itself
when the operation is over) or by completing.

A state is the data the mutex guards together with the control point of every task's thread and of
the scheduler's. An action is one critical section. A thread parked on the condition variable
re-tests its condition whenever it is woken, which may happen at any time, so parking needs no
action of its own: the wake-up is the action, and it is enabled when the test succeeds.

Between `kryos_coop_io_begin` and `kryos_coop_io_end` a thread is inside the blocking operation
that `io_offload` brackets, so a task that is away does nothing but come back.

## Main results

* `Executor.Inv.step` — one critical section preserves the link between `turn`, `ready`, `live`
  and the control points
* `Executor.executor_is_safe` — in every reachable state at most one task has the baton, every
  incomplete task is in exactly one place, `live` counts the incomplete tasks, only the holder
  hands the baton back, and `kryos_coop_run` returns only when nothing is left to run
-/

namespace Kryos.Runtime.Executor

/-- Whose turn it is to run. -/
inductive Turn where
  | scheduler
  | task (id : ℕ)
  deriving DecidableEq, Repr

/-- The scheduler state, guarded by the mutex. -/
structure Shared where
  turn : Turn
  ready : List ℕ
  live : ℕ
  nextId : ℕ
  deriving DecidableEq, Repr

/-- Where a task's thread stands. -/
inductive Point where
  /-- no such task has been spawned -/
  | absent
  /-- registered, its thread not yet in `wait_for_turn` -/
  | starting
  /-- waiting for its turn: in `wait_for_turn`, `kryos_coop_yield` or `kryos_coop_io_end` -/
  | parked
  /-- executing its body -/
  | running
  /-- inside a blocking operation -/
  | away
  /-- its body has returned and the completion section is over -/
  | completed
  deriving DecidableEq, Repr

/-- Where the thread that calls `kryos_coop_run` stands. -/
inductive Scheduling where
  /-- no call is in progress -/
  | idle
  /-- before the section that picks a task, or parked in it because none is ready -/
  | picking
  /-- parked until the baton comes back -/
  | granting
  deriving DecidableEq, Repr

structure State where
  shared : Shared
  task : ℕ → Point
  scheduling : Scheduling

/-- The critical sections, with the task whose thread executes them. -/
inductive Action where
  | coopSpawn
  | start (id : ℕ)
  | wake (id : ℕ)
  | coopYield (id : ℕ)
  | coopIoBegin (id : ℕ)
  | coopIoEnd (id : ℕ)
  | complete (id : ℕ)
  | coopRun
  | pick
  | resume
  deriving DecidableEq, Repr

/-- The control point at which an action is taken, with the test that ends a wait. -/
def enabled (s : State) : Action → Prop
  | .coopSpawn => True
  | .start id => s.task id = .starting
  | .wake id => s.task id = .parked ∧ s.shared.turn = .task id
  | .coopYield id => s.task id = .running
  | .coopIoBegin id => s.task id = .running
  | .coopIoEnd id => s.task id = .away
  | .complete id => s.task id = .running
  | .coopRun => s.scheduling = .idle
  | .pick => s.scheduling = .picking
  | .resume => s.scheduling = .granting ∧ s.shared.turn = .scheduler

instance (s : State) : (a : Action) → Decidable (enabled s a)
  | .coopSpawn => inferInstanceAs (Decidable True)
  | .start _ | .coopYield _ | .coopIoBegin _ | .coopIoEnd _ | .complete _ =>
    inferInstanceAs (Decidable (_ = _))
  | .coopRun | .pick => inferInstanceAs (Decidable (_ = _))
  | .wake _ | .resume => inferInstanceAs (Decidable (_ ∧ _))

/-- Move a task's thread to another control point. -/
def State.move (s : State) (id : ℕ) (p : Point) : State :=
  { s with task := Function.update s.task id p }

/-- Register a new task: `kryos_coop_spawn` up to the start of the thread. -/
def coopSpawn (s : State) : State :=
  let id := s.shared.nextId + 1
  { s with
    shared := { s.shared with
      nextId := id
      ready := s.shared.ready ++ [id]
      live := s.shared.live + 1 }
    task := Function.update s.task id .starting }

/-- Re-queue and hand the baton back. -/
def coopYield (s : State) (id : ℕ) : State :=
  { s.move id .parked with
    shared := { s.shared with ready := s.shared.ready ++ [id], turn := .scheduler } }

/-- Hand the baton back without re-queueing. -/
def coopIoBegin (s : State) (id : ℕ) : State :=
  { s.move id .away with shared := { s.shared with turn := .scheduler } }

/-- Re-queue after the blocking operation. -/
def coopIoEnd (s : State) (id : ℕ) : State :=
  { s.move id .parked with shared := { s.shared with ready := s.shared.ready ++ [id] } }

/-- The completion section at the end of a task's thread. -/
def complete (s : State) (id : ℕ) : State :=
  { s.move id .completed with
    shared := { s.shared with live := s.shared.live - 1, turn := .scheduler } }

/-- The section of `kryos_coop_run` that grants the baton to the first ready task; with none ready
it returns when no task is live and waits otherwise. -/
def pick (s : State) : State :=
  match s.shared.ready with
  | id :: rest =>
    { s with shared := { s.shared with ready := rest, turn := .task id }, scheduling := .granting }
  | [] => if s.shared.live = 0 then { s with scheduling := .idle } else s

def effect (s : State) : Action → State
  | .coopSpawn => coopSpawn s
  | .start id => s.move id .parked
  | .wake id => s.move id .running
  | .coopYield id => coopYield s id
  | .coopIoBegin id => coopIoBegin s id
  | .coopIoEnd id => coopIoEnd s id
  | .complete id => complete s id
  | .coopRun => { s with scheduling := .picking }
  | .pick => pick s
  | .resume => { s with scheduling := .picking }

/-- The state `sched()` initialises: nothing spawned, no run in progress. -/
def initial : State where
  shared := { turn := .scheduler, ready := [], live := 0, nextId := 0 }
  task _ := .absent
  scheduling := .idle

/-- The executor: any interleaving of the critical sections. -/
def executor : Protocol State Action :=
  Protocol.guarded (· = initial) enabled effect

/-! ## What the protocol is about -/

/-- The task is between being granted the baton and handing it back. -/
def HasBaton (s : State) (id : ℕ) : Prop :=
  s.shared.turn = .task id ∨ s.task id = .running

/-- The task has been spawned and has not completed. -/
def Incomplete (s : State) (id : ℕ) : Prop :=
  s.task id ≠ .absent ∧ s.task id ≠ .completed

/-- The task waits in `ready`, once. -/
def QueuedOnce (s : State) (id : ℕ) : Prop :=
  s.shared.ready.count id = 1

/-- The actions by which the thread of a task hands the baton to the scheduler. -/
def HandsBack (id : ℕ) : Action → Prop
  | .coopYield i => i = id
  | .coopIoBegin i => i = id
  | .complete i => i = id
  | _ => False

/-! ## The invariant -/

/-- The link between the guarded data and the control points. -/
structure Inv (s : State) : Prop where
  absent_iff : ∀ id, s.task id = .absent ↔ id = 0 ∨ s.shared.nextId < id
  running_turn : ∀ id, s.task id = .running → s.shared.turn = .task id
  turn_point : ∀ id, s.shared.turn = .task id →
    s.task id = .starting ∨ s.task id = .parked ∨ s.task id = .running
  turn_granting : ∀ id, s.shared.turn = .task id → s.scheduling = .granting
  turn_ready : ∀ id, s.shared.turn = .task id → id ∉ s.shared.ready
  ready_nodup : s.shared.ready.Nodup
  ready_point : ∀ id ∈ s.shared.ready, s.task id = .starting ∨ s.task id = .parked
  waiting : ∀ id, s.task id = .starting ∨ s.task id = .parked →
    s.shared.turn = .task id ∨ id ∈ s.shared.ready
  live_eq : s.shared.live = {id | Incomplete s id}.ncard

theorem inv_initial : Inv initial where
  absent_iff id := by simp [initial]; omega
  running_turn id h := by simp [initial] at h
  turn_point id h := by simp [initial] at h
  turn_granting id h := by simp [initial] at h
  turn_ready id h := by simp [initial] at h
  ready_nodup := List.nodup_nil
  ready_point id h := by simp [initial] at h
  waiting id h := by simp [initial] at h
  live_eq := by simp [initial, Incomplete]

variable {s : State} {id : ℕ}

/-- Only the ids handed out so far can be incomplete. -/
theorem Inv.finite_incomplete (hs : Inv s) : {id | Incomplete s id}.Finite := by
  refine (Set.finite_Icc 1 s.shared.nextId).subset fun id hid => ?_
  have := mt (hs.absent_iff id).mpr hid.1
  simp only [Set.mem_Icc]
  omega

/-- Moving an incomplete task to a point where it is still incomplete changes no count. -/
theorem Inv.live_update (hs : Inv s) {t : State} {p : Point} (id : ℕ) (hid : Incomplete s id)
    (hp : p ≠ .absent ∧ p ≠ .completed) (ht : t.task = Function.update s.task id p)
    (hlive : t.shared.live = s.shared.live) :
    t.shared.live = {i | Incomplete t i}.ncard := by
  have hset : {i | Incomplete t i} = {i | Incomplete s i} := by
    ext i
    rcases eq_or_ne i id with rfl | hi
    · simpa [Incomplete, ht, hp] using hid
    · simp [Incomplete, ht, hi]
  rw [hset, hlive, hs.live_eq]

theorem Inv.coopSpawn (hs : Inv s) : Inv (coopSpawn s) := by
  have hnew : s.task (s.shared.nextId + 1) = .absent := (hs.absent_iff _).mpr (.inr (by omega))
  have hqueue : s.shared.nextId + 1 ∉ s.shared.ready := by
    intro h
    rcases hs.ready_point _ h with h | h <;> simp [hnew] at h
  have hturn : s.shared.turn ≠ .task (s.shared.nextId + 1) := by
    intro h
    rcases hs.turn_point _ h with h | h | h <;> simp [hnew] at h
  have hset : {i | Incomplete (Executor.coopSpawn s) i}
      = insert (s.shared.nextId + 1) {i | Incomplete s i} := by
    ext i
    rcases eq_or_ne i (s.shared.nextId + 1) with rfl | hi
    · simp [Incomplete, Executor.coopSpawn]
    · simp [Incomplete, Executor.coopSpawn, hi]
  constructor
  case live_eq =>
    rw [hset, Set.ncard_insert_of_notMem (by simp [Incomplete, hnew]) hs.finite_incomplete]
    simp [Executor.coopSpawn, hs.live_eq]
  all_goals
    obtain ⟨h1, h2, h3, h4, h5, h6, h7, h8, -⟩ := hs
    simp only [Executor.coopSpawn]
    grind

theorem Inv.start (hs : Inv s) (h : s.task id = .starting) : Inv (s.move id .parked) := by
  constructor
  case live_eq => exact hs.live_update id (by simp [Incomplete, h]) (by simp) rfl rfl
  all_goals
    obtain ⟨h1, h2, h3, h4, h5, h6, h7, h8, -⟩ := hs
    simp only [State.move]
    grind

theorem Inv.wake (hs : Inv s) (h : s.task id = .parked) (hturn : s.shared.turn = .task id) :
    Inv (s.move id .running) := by
  constructor
  case live_eq => exact hs.live_update id (by simp [Incomplete, h]) (by simp) rfl rfl
  all_goals
    obtain ⟨h1, h2, h3, h4, h5, h6, h7, h8, -⟩ := hs
    simp only [State.move]
    grind

theorem Inv.coopYield (hs : Inv s) (h : s.task id = .running) : Inv (coopYield s id) := by
  have hturn := hs.running_turn id h
  constructor
  case live_eq => exact hs.live_update id (by simp [Incomplete, h]) (by simp) rfl rfl
  all_goals
    obtain ⟨h1, h2, h3, h4, h5, h6, h7, h8, -⟩ := hs
    simp only [Executor.coopYield, State.move]
    grind

theorem Inv.coopIoBegin (hs : Inv s) (h : s.task id = .running) : Inv (coopIoBegin s id) := by
  have hturn := hs.running_turn id h
  constructor
  case live_eq => exact hs.live_update id (by simp [Incomplete, h]) (by simp) rfl rfl
  all_goals
    obtain ⟨h1, h2, h3, h4, h5, h6, h7, h8, -⟩ := hs
    simp only [Executor.coopIoBegin, State.move]
    grind

/-- A task that comes back is neither queued nor granted, so it enters `ready` once. -/
theorem Inv.coopIoEnd (hs : Inv s) (h : s.task id = .away) : Inv (coopIoEnd s id) := by
  have hqueue : id ∉ s.shared.ready := by
    intro hmem
    rcases hs.ready_point _ hmem with h' | h' <;> simp [h] at h'
  constructor
  case live_eq => exact hs.live_update id (by simp [Incomplete, h]) (by simp) rfl rfl
  all_goals
    obtain ⟨h1, h2, h3, h4, h5, h6, h7, h8, -⟩ := hs
    simp only [Executor.coopIoEnd, State.move]
    grind

theorem Inv.complete (hs : Inv s) (h : s.task id = .running) : Inv (complete s id) := by
  have hturn := hs.running_turn id h
  have hset : {i | Incomplete (Executor.complete s id) i} = {i | Incomplete s i} \ {id} := by
    ext i
    rcases eq_or_ne i id with rfl | hi
    · simp [Incomplete, Executor.complete, State.move]
    · simp [Incomplete, Executor.complete, State.move, hi]
  constructor
  case live_eq =>
    rw [hset, Set.ncard_sdiff_singleton_of_mem (by simp [Incomplete, h])]
    simp [Executor.complete, hs.live_eq]
  all_goals
    obtain ⟨h1, h2, h3, h4, h5, h6, h7, h8, -⟩ := hs
    simp only [Executor.complete, State.move]
    grind

/-- With the scheduler's thread outside `granting` the baton is its own. -/
theorem Inv.turn_scheduler (hs : Inv s) (h : s.scheduling ≠ .granting) :
    s.shared.turn = .scheduler := by
  rcases hturn : s.shared.turn with _ | id
  · rfl
  · exact absurd (hs.turn_granting id hturn) h

theorem Inv.pick (hs : Inv s) (h : s.scheduling = .picking) : Inv (pick s) := by
  have hturn := hs.turn_scheduler (by simp [h])
  rcases hready : s.shared.ready with _ | ⟨id, rest⟩
  · simp only [Executor.pick, hready]
    split
    · exact { hs with turn_granting := by simp [hturn] }
    · exact hs
  · simp only [Executor.pick, hready]
    constructor
    case live_eq => exact hs.live_eq
    all_goals
      obtain ⟨h1, h2, h3, h4, h5, h6, h7, h8, -⟩ := hs
      simp only
      grind

/-- **One critical section preserves the invariant.** -/
theorem Inv.step {a : Action} {s' : State} (hs : Inv s) (h : executor.step s a = some s') :
    Inv s' := by
  obtain ⟨hen, rfl⟩ := Protocol.guarded_step_eq_some.mp h
  cases a with
  | coopSpawn => exact hs.coopSpawn
  | start id => exact hs.start hen
  | wake id => exact hs.wake hen.1 hen.2
  | coopYield id => exact hs.coopYield hen
  | coopIoBegin id => exact hs.coopIoBegin hen
  | coopIoEnd id => exact hs.coopIoEnd hen
  | complete id => exact hs.complete hen
  | coopRun =>
    have hturn := hs.turn_scheduler (by rw [show s.scheduling = .idle from hen]; simp)
    exact { hs with turn_granting := by simp [effect, hturn] }
  | pick => exact hs.pick hen
  | resume => exact { hs with turn_granting := by simp [effect, hen.2] }

/-- Every interleaving keeps the invariant. -/
theorem inv_of_reachable (h : executor.Reachable s) : Inv s :=
  h.invariant (fun _ h₀ => h₀ ▸ inv_initial) fun _ _ _ hs _ hst => hs.step hst

/-! ## Safety -/

theorem Inv.turn_of_hasBaton (hs : Inv s) (h : HasBaton s id) : s.shared.turn = .task id :=
  h.elim (fun h => h) (hs.running_turn id)

theorem Inv.hasBaton_unique (hs : Inv s) {i j : ℕ} (hi : HasBaton s i) (hj : HasBaton s j) :
    i = j :=
  Turn.task.inj ((hs.turn_of_hasBaton hi).symm.trans (hs.turn_of_hasBaton hj))

/-- Every incomplete task is in exactly one of the three places. -/
theorem Inv.placed (hs : Inv s) (hid : Incomplete s id) :
    (HasBaton s id ∧ id ∉ s.shared.ready ∧ s.task id ≠ .away) ∨
    (¬ HasBaton s id ∧ QueuedOnce s id ∧ s.task id ≠ .away) ∨
    (¬ HasBaton s id ∧ id ∉ s.shared.ready ∧ s.task id = .away) := by
  have hcount : QueuedOnce s id ↔ id ∈ s.shared.ready := by
    refine ⟨fun h => List.count_pos_iff.mp (by rw [h]; exact one_pos), fun h => ?_⟩
    exact List.count_eq_one_of_mem hs.ready_nodup h
  rw [hcount]
  obtain ⟨-, h2, h3, -, h5, -, h7, h8, -⟩ := hs
  have hcases : s.task id = .starting ∨ s.task id = .parked ∨ s.task id = .running ∨
      s.task id = .away := by
    rcases hp : s.task id <;> simp_all [Incomplete]
  unfold HasBaton
  grind

/-- A step that returns the baton to the scheduler is a step of the task that holds it. -/
theorem Inv.handed_back_by_holder (hs : Inv s) {a : Action} {s' : State}
    (h : executor.step s a = some s') :
    (∀ id, HandsBack id a → s.shared.turn = .task id) ∧
    (∀ id, s.shared.turn = .task id → s'.shared.turn ≠ .task id →
      s'.shared.turn = .scheduler ∧ HandsBack id a) := by
  obtain ⟨hen, rfl⟩ := Protocol.guarded_step_eq_some.mp h
  constructor
  · intro id hback
    cases a <;> simp only [HandsBack] at hback <;> subst hback <;> exact hs.running_turn _ hen
  · intro id hturn hne
    cases a with
    | coopYield i | coopIoBegin i | complete i =>
      have hi := hs.running_turn i hen
      exact ⟨rfl, Turn.task.inj (hi.symm.trans hturn)⟩
    | pick =>
      have hgrant := hs.turn_granting id hturn
      exact absurd (hgrant.symm.trans hen) (by simp)
    | _ => exact absurd hturn hne

/-- The section that ends `kryos_coop_run` finds no incomplete task. -/
theorem Inv.returns_when_done (hs : Inv s) {a : Action} {s' : State}
    (h : executor.step s a = some s') (hbusy : s.scheduling ≠ .idle)
    (hret : s'.scheduling = .idle) : ∀ id, ¬ Incomplete s id := by
  obtain ⟨hen, rfl⟩ := Protocol.guarded_step_eq_some.mp h
  have hlive : s.shared.live = 0 := by
    cases a with
    | coopRun | resume => exact absurd hret (by simp [effect])
    | pick =>
      simp only [effect, Executor.pick] at hret
      split at hret
      · simp at hret
      · split at hret
        · assumption
        · exact absurd hret hbusy
    | _ => exact absurd hret hbusy
  rw [hs.live_eq, Set.ncard_eq_zero hs.finite_incomplete] at hlive
  intro id hid
  exact Set.eq_empty_iff_forall_notMem.mp hlive id hid

/-- **The executor's protocol is safe.** In every state that any interleaving of any number of
tasks reaches: at most one task has the baton; every incomplete task has the baton, is queued
exactly once or is away, and only one of these; `live` is the number of incomplete tasks; a step
hands the baton back only when it is taken by the task that holds it, and the baton leaves a task
in no other way; and `kryos_coop_run` returns only when every spawned task has completed. -/
theorem executor_is_safe (h : executor.Reachable s) :
    (∀ i j, HasBaton s i → HasBaton s j → i = j) ∧
    (∀ id, Incomplete s id →
      (HasBaton s id ∧ id ∉ s.shared.ready ∧ s.task id ≠ .away) ∨
      (¬ HasBaton s id ∧ QueuedOnce s id ∧ s.task id ≠ .away) ∨
      (¬ HasBaton s id ∧ id ∉ s.shared.ready ∧ s.task id = .away)) ∧
    s.shared.live = {id | Incomplete s id}.ncard ∧
    (∀ a s', executor.step s a = some s' →
      (∀ id, HandsBack id a → s.shared.turn = .task id) ∧
      (∀ id, s.shared.turn = .task id → s'.shared.turn ≠ .task id →
        s'.shared.turn = .scheduler ∧ HandsBack id a) ∧
      (s.scheduling ≠ .idle → s'.scheduling = .idle → ∀ id, ¬ Incomplete s id)) := by
  have hs := inv_of_reachable h
  refine ⟨fun i j => hs.hasBaton_unique, fun id => hs.placed, hs.live_eq, fun a s' hst => ?_⟩
  exact ⟨(hs.handed_back_by_holder hst).1, (hs.handed_back_by_holder hst).2,
    hs.returns_when_done hst⟩

/-- Two tasks: the first goes away for a blocking operation, the second then gets the baton. -/
def oneAway : List Action :=
  [.coopSpawn, .coopSpawn, .coopRun, .pick, .start 1, .wake 1, .coopIoBegin 1, .resume, .pick,
    .start 2, .wake 2]

theorem executor_is_safe_oneAway : ∃ s, executor.schedule initial oneAway = some s ∧
    s.task 1 = .away ∧ s.task 2 = .running ∧ s.shared.live = {id | Incomplete s id}.ncard := by
  have h : executor.schedule initial oneAway = some _ := rfl
  exact ⟨_, h, rfl, rfl, (executor_is_safe (Protocol.reachable_of_schedule rfl h)).2.2.1⟩

end Kryos.Runtime.Executor
