import Mathlib
import Kryos.Lib.RoundRobin
import Kryos.Runtime.Executor

/-!
# The order of cooperative tasks

A fixed number of tasks is spawned before `kryos_coop_run`, and each of them yields a fixed number
of times. A segment of a task lasts from the moment its thread has got its turn to the next yield or
to the end. The segments that have begun are recorded beside the state of the executor.

## Main results

* `InOrder.step` — one critical section keeps the order of what is still to come
* `coop_round_robin` — every interleaving runs the segments in rounds
-/

namespace Kryos.Runtime.Executor

open RoundRobin

/-- The executor, with the task of each segment that has begun. -/
structure History where
  exec : State
  segments : List ℕ

/-- What `n` tasks do that yield `yields id` times and do no blocking operation: the first segment
that is not the last ends in a yield, and so on. -/
def allowed (n : ℕ) (yields : ℕ → ℕ) (s : History) : Action → Prop
  | .coopSpawn => s.exec.shared.nextId < n
  | .coopRun => s.exec.shared.nextId = n
  | .coopYield id => s.segments.count id ≤ yields id
  | .complete id => s.segments.count id = yields id + 1
  | .coopIoBegin _ | .coopIoEnd _ => False
  | .start _ | .wake _ | .pick | .resume => True

instance (n : ℕ) (yields : ℕ → ℕ) (s : History) : (a : Action) → Decidable (allowed n yields s a)
  | .coopSpawn => inferInstanceAs (Decidable (_ < _))
  | .coopYield id => inferInstanceAs (Decidable (s.segments.count id ≤ yields id))
  | .coopRun | .complete _ => inferInstanceAs (Decidable (_ = _))
  | .coopIoBegin _ | .coopIoEnd _ => inferInstanceAs (Decidable False)
  | .start _ | .wake _ | .pick | .resume => inferInstanceAs (Decidable True)

/-- A segment begins where a thread wakes up with its turn. -/
def begun (segments : List ℕ) : Action → List ℕ
  | .wake id => segments ++ [id]
  | _ => segments

/-- Any interleaving of the tasks. -/
def tasks (n : ℕ) (yields : ℕ → ℕ) : Protocol History Action :=
  Protocol.guarded (· = ⟨initial, []⟩)
    (fun s a => allowed n yields s a ∧ enabled s.exec a)
    fun s a => ⟨effect s.exec a, begun s.segments a⟩

/-- The first segments of all tasks in the order in which they are spawned, then the second ones of
those that have one, and so on. -/
def segmentOrder (n : ℕ) (yields : ℕ → ℕ) : List ℕ :=
  (List.range ((Finset.Icc 1 n).sup yields + 1)).flatMap fun k =>
    (List.range' 1 n).filter fun id => k ≤ yields id

theorem segmentOrder_eq (n : ℕ) (yields : ℕ → ℕ) :
    segmentOrder n yields = turns ((List.range' 1 n).map fun id => (id, yields id + 1)) := by
  have hle : ∀ p ∈ (List.range' 1 n).map fun id => (id, yields id + 1),
      p.2 ≤ (Finset.Icc 1 n).sup yields + 1 := by
    intro p hp
    obtain ⟨id, hid, rfl⟩ := List.mem_map.mp hp
    have hmem := List.mem_range'_1.mp hid
    exact Nat.succ_le_succ (Finset.le_sup (Finset.mem_Icc.mpr (by omega)))
  rw [turns_eq_rounds hle, segmentOrder, rounds]
  refine congrArg (fun f => List.flatMap f _) (funext fun k => ?_)
  rw [RoundRobin.round, List.filter_map, List.map_map]
  have hkeep : ((fun p : ℕ × ℕ => decide (k < p.2)) ∘ fun id => (id, yields id + 1)) =
      fun id => decide (k ≤ yields id) := by
    funext id
    exact decide_eq_decide.mpr Nat.lt_succ_iff
  rw [hkeep]
  exact (List.map_id _).symm

/-! ## What is still to come -/

/-- The task that has been granted the baton and has not woken up yet. -/
def granted (s : State) : List ℕ :=
  match s.shared.turn with
  | .task id => if s.task id = .running then [] else [id]
  | .scheduler => []

/-- The task that runs. -/
def runner (s : State) : List ℕ :=
  match s.shared.turn with
  | .task id => if s.task id = .running then [id] else []
  | .scheduler => []

/-- The tasks in the order in which they get their next turn; the one that runs goes to the back. -/
def upcoming (n : ℕ) (s : State) : List ℕ :=
  granted s ++ (s.shared.ready ++ (List.range' (s.shared.nextId + 1) (n - s.shared.nextId) ++
    runner s))

/-- A task with the number of segments that it has not begun. -/
def remaining (yields : ℕ → ℕ) (segments : List ℕ) (id : ℕ) : ℕ × ℕ :=
  (id, yields id + 1 - segments.count id)

/-- The segments begun and those to come make up the whole order. -/
structure InOrder (n : ℕ) (yields : ℕ → ℕ) (s : History) : Prop where
  inv : Inv s.exec
  nextId_le : s.exec.shared.nextId ≤ n
  spawned : s.exec.scheduling ≠ .idle → s.exec.shared.nextId = n
  not_away : ∀ id, s.exec.task id ≠ .away
  due : ∀ id, s.exec.task id ≠ .running → s.exec.task id ≠ .completed →
    s.segments.count id ≤ yields id
  running : ∀ id, s.exec.task id = .running → s.segments.count id ≤ yields id + 1
  turns_eq : s.segments ++ turns ((upcoming n s.exec).map (remaining yields s.segments)) =
    segmentOrder n yields

variable {n : ℕ} {yields : ℕ → ℕ} {s s' : History} {id : ℕ}

/-- Where no task has been granted the baton and none runs. -/
theorem upcoming_of_scheduler {t : State} (h : t.shared.turn = .scheduler) :
    upcoming n t = t.shared.ready ++ List.range' (t.shared.nextId + 1) (n - t.shared.nextId) := by
  simp [upcoming, granted, runner, h]

theorem inOrder_initial (n : ℕ) (yields : ℕ → ℕ) : InOrder n yields ⟨initial, []⟩ where
  inv := inv_initial
  nextId_le := Nat.zero_le n
  spawned h := absurd rfl h
  not_away _ := nofun
  due _ _ _ := Nat.zero_le _
  running _ := nofun
  turns_eq := by
    rw [segmentOrder_eq, upcoming_of_scheduler rfl]
    rfl

theorem upcoming_of_granted (id : ℕ) {t : State} (h : t.shared.turn = .task id) (hid : t.task id ≠ .running)
    (hn : t.shared.nextId = n) : upcoming n t = id :: t.shared.ready := by
  simp [upcoming, granted, runner, h, hid, hn]

theorem upcoming_of_running {t : State} (h : t.shared.turn = .task id) (hid : t.task id = .running)
    (hn : t.shared.nextId = n) : upcoming n t = t.shared.ready ++ [id] := by
  simp [upcoming, granted, runner, h, hid, hn]

/-- While a task has the baton, all tasks have been spawned. -/
theorem InOrder.all_spawned (hs : InOrder n yields s) (h : s.exec.shared.turn = .task id) :
    s.exec.shared.nextId = n :=
  hs.spawned (by rw [hs.inv.turn_granting id h]; nofun)

/-- A step that begins no segment and leaves the order of the tasks. -/
theorem InOrder.keep {t : State} (hs : InOrder n yields s) (h : upcoming n t = upcoming n s.exec) :
    s.segments ++ turns ((upcoming n t).map (remaining yields s.segments)) =
      segmentOrder n yields := by
  rw [h, hs.turns_eq]

theorem InOrder.coopSpawn (hs : InOrder n yields s) (h : s.exec.shared.nextId < n) :
    InOrder n yields ⟨coopSpawn s.exec, s.segments⟩ := by
  have hidle : s.exec.scheduling = .idle := by
    by_contra hbusy
    exact absurd (hs.spawned hbusy) h.ne
  have hturn := hs.inv.turn_scheduler (by rw [hidle]; nofun)
  have hnew := (hs.inv.absent_iff (s.exec.shared.nextId + 1)).mpr (.inr (Nat.lt_succ_self _))
  constructor
  case inv => exact hs.inv.coopSpawn
  case nextId_le => exact h
  case spawned => exact fun hbusy => absurd hidle hbusy
  case turns_eq =>
    refine hs.keep ?_
    obtain ⟨k, hk⟩ := Nat.exists_eq_add_of_lt h
    have hturn' : (Executor.coopSpawn s.exec).shared.turn = .scheduler := hturn
    rw [upcoming_of_scheduler hturn, upcoming_of_scheduler hturn']
    simp only [Executor.coopSpawn]
    rw [show n - s.exec.shared.nextId = (n - (s.exec.shared.nextId + 1)) + 1 by omega,
      List.range'_succ, List.append_assoc, List.singleton_append]
  all_goals
    obtain ⟨-, -, -, h1, h2, h3, -⟩ := hs
    simp only [Executor.coopSpawn]
    grind

theorem InOrder.start (hs : InOrder n yields s) (h : s.exec.task id = .starting) :
    InOrder n yields ⟨s.exec.move id .parked, s.segments⟩ := by
  have hrun : ∀ i, (s.exec.move id .parked).task i = .running ↔ s.exec.task i = .running := by
    intro i
    simp only [State.move]
    grind
  constructor
  case inv => exact hs.inv.start h
  case nextId_le => exact hs.nextId_le
  case spawned => exact hs.spawned
  case turns_eq =>
    refine hs.keep ?_
    simp only [upcoming, granted, runner, hrun]
    rfl
  all_goals
    obtain ⟨-, -, -, h1, h2, h3, -⟩ := hs
    simp only [State.move]
    grind

/-- The first of the queue takes its turn and goes to the back. -/
theorem InOrder.wake (hs : InOrder n yields s) (h : s.exec.task id = .parked)
    (hturn : s.exec.shared.turn = .task id) :
    InOrder n yields ⟨s.exec.move id .running, s.segments ++ [id]⟩ := by
  have hdue := hs.due id (by rw [h]; nofun) (by rw [h]; nofun)
  have hn := hs.all_spawned hturn
  have hcount : ∀ i, (s.segments ++ [id]).count i = s.segments.count i + if id = i then 1 else 0 := by
    intro i
    rw [List.count_append, List.count_singleton]
    simp
  constructor
  case inv => exact hs.inv.wake h hturn
  case nextId_le => exact hs.nextId_le
  case spawned => exact hs.spawned
  case turns_eq =>
    have hturns := hs.turns_eq
    have hqueue : s.exec.shared.ready.map (remaining yields (s.segments ++ [id])) =
        s.exec.shared.ready.map (remaining yields s.segments) := by
      refine List.map_congr_left fun i hi => ?_
      have hne : id ≠ i := fun heq => hs.inv.turn_ready id hturn (heq ▸ hi)
      simp [remaining, hcount, hne]
    have hlast : remaining yields (s.segments ++ [id]) id = (id, yields id - s.segments.count id) := by
      rw [remaining, hcount, if_pos rfl]
      congr 1
      omega
    have hfirst : remaining yields s.segments id =
        (id, (yields id - s.segments.count id) + 1) := by
      rw [remaining]
      congr 1
      omega
    rw [upcoming_of_granted id hturn (by rw [h]; nofun) hn, List.map_cons, hfirst, turns] at hturns
    have hmove : (s.exec.move id .running).task id = .running := Function.update_self ..
    rw [upcoming_of_running (t := s.exec.move id .running) hturn hmove hn, List.map_append,
      List.map_singleton, hlast, List.append_assoc, List.singleton_append]
    exact hqueue ▸ hturns
  all_goals
    obtain ⟨-, -, -, h1, h2, h3, -⟩ := hs
    simp only [State.move, hcount]
    grind

theorem InOrder.coopYield (hs : InOrder n yields s) (h : s.exec.task id = .running)
    (hmore : s.segments.count id ≤ yields id) :
    InOrder n yields ⟨coopYield s.exec id, s.segments⟩ := by
  have hturn := hs.inv.running_turn id h
  have hn := hs.all_spawned hturn
  constructor
  case inv => exact hs.inv.coopYield h
  case nextId_le => exact hs.nextId_le
  case spawned => exact hs.spawned
  case turns_eq =>
    refine hs.keep ?_
    rw [upcoming_of_running hturn h hn, upcoming_of_scheduler rfl]
    simp [Executor.coopYield, State.move, hn]
  all_goals
    obtain ⟨-, -, -, h1, h2, h3, -⟩ := hs
    simp only [Executor.coopYield, State.move]
    grind

/-- A task without further segments leaves the queue. -/
theorem InOrder.complete (hs : InOrder n yields s) (h : s.exec.task id = .running)
    (hlast : s.segments.count id = yields id + 1) :
    InOrder n yields ⟨complete s.exec id, s.segments⟩ := by
  have hturn := hs.inv.running_turn id h
  have hn := hs.all_spawned hturn
  constructor
  case inv => exact hs.inv.complete h
  case nextId_le => exact hs.nextId_le
  case spawned => exact hs.spawned
  case turns_eq =>
    have hzero : remaining yields s.segments id = (id, 0) := by
      rw [remaining, hlast, Nat.sub_self]
    have hturns := hs.turns_eq
    rw [upcoming_of_running hturn h hn, List.map_append, List.map_singleton, hzero,
      turns_append_zero] at hturns
    rw [upcoming_of_scheduler rfl]
    simpa [Executor.complete, State.move, hn] using hturns
  all_goals
    obtain ⟨-, -, -, h1, h2, h3, -⟩ := hs
    simp only [Executor.complete, State.move]
    grind

theorem InOrder.pick (hs : InOrder n yields s) (h : s.exec.scheduling = .picking) :
    InOrder n yields ⟨pick s.exec, s.segments⟩ := by
  have hn := hs.spawned (by rw [h]; rintro ⟨⟩)
  have hturn := hs.inv.turn_scheduler (by rw [h]; rintro ⟨⟩)
  have hinv := hs.inv.pick h
  rcases hready : s.exec.shared.ready with _ | ⟨id, rest⟩
  · simp only [Executor.pick, hready] at hinv ⊢
    split
    · exact { hs with inv := by simpa [*] using hinv, spawned := fun _ => hn }
    · exact hs
  · simp only [Executor.pick, hready] at hinv ⊢
    have hpoint : s.exec.task id ≠ .running := by
      rcases hs.inv.ready_point id (by rw [hready]; exact List.mem_cons_self) with hp | hp <;>
        rw [hp] <;> rintro ⟨⟩
    refine { hs with inv := hinv, spawned := fun _ => hn, turns_eq := hs.keep ?_ }
    refine (upcoming_of_granted id ?_ ?_ ?_).trans ?_
    · rfl
    · exact hpoint
    · exact hn
    · rw [upcoming_of_scheduler hturn, hready, hn]
      simp

/-- **One critical section keeps the order of what is still to come.** -/
theorem InOrder.step {a : Action} (hs : InOrder n yields s)
    (h : (tasks n yields).step s a = some s') : InOrder n yields s' := by
  obtain ⟨⟨hall, hen⟩, rfl⟩ := Protocol.guarded_step_eq_some.mp h
  have hinv : Inv (effect s.exec a) := hs.inv.step (Protocol.guarded_step_eq_some.mpr ⟨hen, rfl⟩)
  cases a with
  | coopSpawn => exact hs.coopSpawn hall
  | start id => exact hs.start hen
  | wake id => exact hs.wake hen.1 hen.2
  | coopYield id => exact hs.coopYield hen hall
  | coopIoBegin id | coopIoEnd id => exact hall.elim
  | complete id => exact hs.complete hen hall
  | coopRun => exact { hs with inv := hinv, spawned := fun _ => hall }
  | pick => exact hs.pick hen
  | resume => exact { hs with inv := hinv, spawned := fun _ => hs.spawned (by rw [hen.1]; nofun) }

theorem inOrder_of_reachable (h : (tasks n yields).Reachable s) : InOrder n yields s :=
  h.invariant (fun _ h₀ => h₀ ▸ inOrder_initial n yields) fun _ _ _ hs _ hst => hs.step hst

/-! ## All segments are run -/

/-- When `kryos_coop_run` returns, nothing is to come. -/
theorem InOrder.segments_of_return {a : Action} (hs : InOrder n yields s)
    (h : (tasks n yields).step s a = some s') (hbusy : s.exec.scheduling ≠ .idle)
    (hret : s'.exec.scheduling = .idle) : s'.segments = segmentOrder n yields := by
  have hs' := hs.step h
  have hn := hs.spawned hbusy
  obtain ⟨⟨hall, hen⟩, rfl⟩ := Protocol.guarded_step_eq_some.mp h
  have hpick : a = .pick ∧ s.exec.shared.ready = [] := by
    cases a with
    | coopRun | resume => exact absurd hret (by simp [effect])
    | pick =>
      rcases hready : s.exec.shared.ready with _ | ⟨id, rest⟩
      · exact ⟨rfl, rfl⟩
      · simp [effect, Executor.pick, hready] at hret
    | _ => exact absurd hret hbusy
  obtain ⟨rfl, hready⟩ := hpick
  have hturns := hs.turns_eq
  have hturn := hs.inv.turn_scheduler (by rw [show s.exec.scheduling = .picking from hen]; rintro ⟨⟩)
  rw [upcoming_of_scheduler hturn, hready, hn, Nat.sub_self, List.range'_zero, List.nil_append,
    List.map_nil, turns, List.append_nil] at hturns
  exact hturns

/-- While a task has not completed, the run goes on. -/
theorem InOrder.exists_step (hs : InOrder n yields s) (hid : id ∈ Finset.Icc 1 n)
    (hopen : s.exec.task id ≠ .completed) :
    ∃ a s', (tasks n yields).step s a = some s' ∧ s' ≠ s := by
  have hstep : ∀ a, allowed n yields s a → enabled s.exec a → effect s.exec a ≠ s.exec →
      ∃ a s', (tasks n yields).step s a = some s' ∧ s' ≠ s := fun a hall hen hne =>
    ⟨a, _, Protocol.guarded_step_eq_some.mpr ⟨⟨hall, hen⟩, rfl⟩, fun h => hne (congrArg History.exec h)⟩
  obtain ⟨hpos, hle⟩ := Finset.mem_Icc.mp hid
  rcases hs.nextId_le.lt_or_eq with hlt | hn
  · refine hstep .coopSpawn hlt trivial fun h => ?_
    exact absurd (congrArg (·.shared.nextId) h) (Nat.succ_ne_self _)
  have hspawned := mt (hs.inv.absent_iff id).mp (by omega)
  rcases hmode : s.exec.scheduling with _ | _ | _
  · refine hstep .coopRun hn hmode fun h => ?_
    exact absurd ((congrArg State.scheduling h).trans hmode) (by simp [effect])
  · have hturn := hs.inv.turn_scheduler (by rw [hmode]; rintro ⟨⟩)
    have hready : id ∈ s.exec.shared.ready := by
      have hrun := hs.inv.running_turn id
      have hwait := hs.inv.waiting id
      have haway := hs.not_away id
      cases hp : s.exec.task id <;> simp_all
    obtain ⟨i, rest, hlist⟩ := List.exists_cons_of_ne_nil (List.ne_nil_of_mem hready)
    refine hstep .pick trivial hmode fun h => ?_
    have := congrArg State.scheduling h
    simp [effect, Executor.pick, hlist, hmode] at this
  · rcases hturn : s.exec.shared.turn with _ | i
    · refine hstep .resume trivial ⟨hmode, hturn⟩ fun h => ?_
      exact absurd ((congrArg State.scheduling h).trans hmode) (by simp [effect])
    · rcases hs.inv.turn_point i hturn with hp | hp | hp
      · refine hstep (.start i) trivial hp fun h => ?_
        have := congrFun (congrArg State.task h) i
        simp [effect, State.move, hp] at this
      · refine hstep (.wake i) trivial ⟨hp, hturn⟩ fun h => ?_
        have := congrFun (congrArg State.task h) i
        simp [effect, State.move, hp] at this
      · rcases (hs.running i hp).lt_or_eq with hmore | hlast
        · refine hstep (.coopYield i) (Nat.le_of_lt_succ hmore) hp fun h => ?_
          exact absurd ((congrArg (·.shared.turn) h).trans hturn) (by simp [effect, Executor.coopYield])
        · refine hstep (.complete i) hlast hp fun h => ?_
          exact absurd ((congrArg (·.shared.turn) h).trans hturn) (by simp [effect, Executor.complete])

/-- **Round robin.** In every interleaving of the threads, the segments begin in the order of the
rounds; all of them have begun when `kryos_coop_run` returns; and no interleaving gets stuck while
a task has not completed. -/
theorem coop_round_robin (n : ℕ) (yields : ℕ → ℕ) {s : History}
    (h : (tasks n yields).Reachable s) :
    s.segments <+: segmentOrder n yields ∧
    (∀ a s', (tasks n yields).step s a = some s' → s.exec.scheduling ≠ .idle →
      s'.exec.scheduling = .idle → s'.segments = segmentOrder n yields) ∧
    ((∃ id ∈ Finset.Icc 1 n, s.exec.task id ≠ .completed) →
      ∃ a s', (tasks n yields).step s a = some s' ∧ s' ≠ s) := by
  have hs := inOrder_of_reachable h
  refine ⟨⟨_, hs.turns_eq⟩, fun a s' hst => hs.segments_of_return hst, ?_⟩
  rintro ⟨id, hid, hopen⟩
  exact hs.exists_step hid hopen

/-- Two tasks, of which the first yields once. -/
def firstYields : List Action :=
  [.coopSpawn, .start 1, .coopSpawn, .coopRun, .pick, .start 2, .wake 1, .coopYield 1, .resume,
    .pick, .wake 2, .complete 2, .resume, .pick, .wake 1]

theorem coop_round_robin_firstYields : ∃ s,
    (tasks 2 fun id => if id = 1 then 1 else 0).schedule ⟨initial, []⟩ firstYields = some s ∧
    s.segments = [1, 2, 1] ∧ s.segments <+: segmentOrder 2 fun id => if id = 1 then 1 else 0 := by
  have h : (tasks 2 fun id => if id = 1 then 1 else 0).schedule ⟨initial, []⟩ firstYields =
    some _ := rfl
  exact ⟨_, h, rfl, (coop_round_robin 2 _ (Protocol.reachable_of_schedule rfl h)).1⟩

end Kryos.Runtime.Executor
