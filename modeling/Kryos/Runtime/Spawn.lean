import Kryos.Lib.Interleaving
import Mathlib.Data.Nat.Notation
import Mathlib.Tactic.SplitIfs

/-!
# Waiting for spawned threads

`kryos_spawn` starts a thread and then takes the lock of the global handle list to register it.
`kryos_spawn_wait_all`, called by the main thread at the end of `main`, takes the same lock, joins
the registered threads one after another and releases the lock only when it returns.

A state is the lock, the list and the control point of every thread; thread 0 is the main thread.
Besides the threads that `kryos_spawn` starts, any number of threads of other parts of the runtime
may be running, and every thread may call `kryos_spawn` at any point. An action is the start of a
thread, its exit, one acquisition or release of the lock, or one join.

A thread that calls `kryos_spawn` while the main thread holds the lock waits for a lock that is
released only after its own exit.

## Main results

* `Spawn.wait_all_is_orderly` — when no thread is inside `kryos_spawn` while the main thread holds
  the lock, the wait neither deadlocks nor returns early
* `Spawn.nested_spawn_deadlocks` — a spawned thread that spawns again can deadlock the wait
-/

namespace Kryos.Runtime.Spawn

/-- Where a thread stands. -/
inductive Point where
  | absent
  /-- executing its own code -/
  | running
  /-- in `kryos_spawn`: thread `c` is started, the lock not yet acquired -/
  | registering (c : ℕ)
  /-- in `kryos_spawn`, holding the lock -/
  | pushing (c : ℕ)
  | finished
  /-- in `kryos_spawn_wait_all`, holding the lock, with these handles still to join -/
  | joining (rest : List ℕ)
  /-- `kryos_spawn_wait_all` has returned -/
  | returned
  deriving DecidableEq, Repr

structure State where
  lock : Option ℕ
  /-- the global list of join handles -/
  handles : List ℕ
  /-- the threads `kryos_spawn` has started so far -/
  spawned : List ℕ
  thread : ℕ → Point

inductive Action where
  /-- thread `p` calls `kryos_spawn`, which starts thread `c` -/
  | start (p c : ℕ)
  | acquire (p : ℕ)
  /-- push the handle and release the lock -/
  | release (p : ℕ)
  | exit (p : ℕ)
  /-- the main thread enters `kryos_spawn_wait_all` and acquires the lock -/
  | waitAcquire
  /-- the join of the next handle succeeds -/
  | join
  /-- the drained list is empty and the lock is released -/
  | waitReturn
  deriving DecidableEq, Repr

/-- Move a thread to another control point. -/
def State.move (s : State) (p : ℕ) (q : Point) : State :=
  { s with thread := Function.update s.thread p q }

/-- One atomic step; `none` where the thread is not at the step's control point or the lock is
taken. -/
def step (s : State) : Action → Option State
  | .start p c =>
    if s.thread p = .running ∧ s.thread c = .absent then
      some { (s.move c .running).move p (.registering c) with spawned := s.spawned ++ [c] }
    else none
  | .acquire p =>
    match s.thread p with
    | .registering c => if s.lock = none then some { s.move p (.pushing c) with lock := some p }
      else none
    | _ => none
  | .release p =>
    match s.thread p with
    | .pushing c => some { s.move p .running with handles := s.handles ++ [c], lock := none }
    | _ => none
  | .exit p => if s.thread p = .running ∧ p ≠ 0 then some (s.move p .finished) else none
  | .waitAcquire =>
    if s.thread 0 = .running ∧ s.lock = none then
      some { s.move 0 (.joining s.handles) with lock := some 0 }
    else none
  | .join =>
    match s.thread 0 with
    | .joining (h :: rest) => if s.thread h = .finished then some (s.move 0 (.joining rest))
      else none
    | _ => none
  | .waitReturn =>
    match s.thread 0 with
    | .joining [] => some { s.move 0 .returned with handles := [], lock := none }
    | _ => none

/-- Before the program spawns: the main thread and any number of threads of the rest of the runtime
are running. -/
structure Init (s : State) : Prop where
  lock : s.lock = none
  handles : s.handles = []
  spawned : s.spawned = []
  main : s.thread 0 = .running
  others : ∀ p, s.thread p = .absent ∨ s.thread p = .running

/-- The handle list under any interleaving of any number of threads. -/
def handleList : Protocol State Action where
  Init := Init
  step := step

/-! ## The two guarantees -/

/-- The main thread holds the lock and is blocked in a join on a thread that is blocked acquiring
that lock. -/
def Deadlocked (s : State) : Prop :=
  s.lock = some 0 ∧ ∃ h rest c, s.thread 0 = .joining (h :: rest) ∧ s.thread h = .registering c

/-- The thread is inside `kryos_spawn`, its child not yet in the list. -/
def InSpawn (s : State) (p : ℕ) : Prop :=
  ∃ c, s.thread p = .registering c ∨ s.thread p = .pushing c

/-- The steps that keep `kryos_spawn` and the wait apart: the wait takes the lock only while no
thread is inside `kryos_spawn`, and no thread enters `kryos_spawn` until the wait has released
it. -/
def Orderly (s : State) : Action → Prop
  | .waitAcquire => ∀ p, ¬ InSpawn s p
  | .start _ _ => ∀ rest, s.thread 0 ≠ .joining rest
  | _ => True

/-! ## The invariant of the orderly runs -/

/-- Until the wait returns, a started thread is in the list or about to be put there; while it
joins, nobody is inside `kryos_spawn` and a started thread is still to be joined or has finished. -/
structure Inv (s : State) : Prop where
  listed : s.thread 0 ≠ .returned → ∀ c ∈ s.spawned,
    (∀ p, s.thread p ≠ .registering c ∧ s.thread p ≠ .pushing c) → c ∈ s.handles
  joining_alone : ∀ rest, s.thread 0 = .joining rest →
    ∀ p c, s.thread p ≠ .registering c ∧ s.thread p ≠ .pushing c
  joining_left : ∀ rest, s.thread 0 = .joining rest → ∀ c ∈ s.spawned,
    c ∈ rest ∨ s.thread c = .finished

theorem inv_of_init {s : State} (h : Init s) : Inv s := by
  obtain ⟨-, -, hs, h0, -⟩ := h
  constructor <;> simp [hs, h0]

variable {s s' : State} {a : Action}

/-- **One orderly step preserves the invariant.** -/
theorem Inv.step (hs : Inv s) (hok : Orderly s a) (h : step s a = some s') : Inv s' := by
  obtain ⟨h1, h2, h3⟩ := hs
  rcases a with ⟨p, c⟩ | p | p | p | _ | _ | _ <;>
    simp only [Spawn.step, Orderly, InSpawn, State.move] at h hok
  · split_ifs at h
    obtain rfl := Option.some.inj h
    constructor <;> simp only [Function.update_apply] <;> grind
  · split at h
    · split_ifs at h
      obtain rfl := Option.some.inj h
      constructor <;> simp only [Function.update_apply] <;> grind
    · exact absurd h (by simp)
  · split at h
    · obtain rfl := Option.some.inj h
      constructor <;> simp only [Function.update_apply] <;> grind
    · exact absurd h (by simp)
  · split_ifs at h
    obtain rfl := Option.some.inj h
    constructor <;> simp only [Function.update_apply] <;> grind
  · split_ifs at h
    obtain rfl := Option.some.inj h
    constructor <;> simp only [Function.update_apply] <;> grind
  · split at h
    · split_ifs at h
      obtain rfl := Option.some.inj h
      constructor <;> simp only [Function.update_apply] <;> grind
    · exact absurd h (by simp)
  · split at h
    · obtain rfl := Option.some.inj h
      constructor <;> simp only [Function.update_apply] <;> grind
    · exact absurd h (by simp)

theorem inv_of_reachable (h : handleList.ReachableWhen Orderly s) : Inv s :=
  h.invariant (fun _ h₀ => inv_of_init h₀) fun _ _ _ hs hok hst => hs.step hok hst

theorem Inv.not_deadlocked (hs : Inv s) : ¬ Deadlocked s := by
  rintro ⟨-, h, rest, c, hjoin, hreg⟩
  exact (hs.joining_alone _ hjoin h c).1 hreg

/-- The step that ends the wait finds every started thread finished. -/
theorem Inv.returns_when_finished (hs : Inv s) (h : Spawn.step s .waitReturn = some s') :
    ∀ c ∈ s'.spawned, s'.thread c = .finished := by
  rcases hjoin : s.thread 0 with _ | _ | _ | _ | _ | rest | _ <;> simp only [Spawn.step, hjoin,
    reduceCtorEq] at h
  rcases rest with _ | ⟨x, rest⟩
  · obtain rfl := Option.some.inj h
    intro c hc
    have hfin : s.thread c = .finished := by simpa using hs.joining_left [] hjoin c hc
    have hne : c ≠ 0 := by
      rintro rfl
      simp [hjoin] at hfin
    simpa [State.move, hne] using hfin
  · exact absurd h (by simp)

/-- **The wait, kept apart from `kryos_spawn`.** In every state of every orderly run
`kryos_spawn_wait_all` is not blocked on a thread that needs its lock, and if it returns in that
state then every thread started until then has finished. -/
theorem wait_all_is_orderly (h : handleList.ReachableWhen Orderly s) :
    ¬ Deadlocked s ∧
    ∀ s', handleList.step s .waitReturn = some s' → ∀ c ∈ s'.spawned, s'.thread c = .finished := by
  have hs := inv_of_reachable h
  exact ⟨hs.not_deadlocked, fun _ hst => hs.returns_when_finished hst⟩

/-- Only the main thread runs. -/
def mainOnly : State where
  lock := none
  handles := []
  spawned := []
  thread p := if p = 0 then .running else .absent

theorem init_mainOnly : Init mainOnly where
  lock := rfl
  handles := rfl
  spawned := rfl
  main := rfl
  others p := by
    by_cases hp : p = 0 <;> simp [mainOnly, hp]

/-- Thread 1 spawns thread 2 before the wait begins, and both finish. -/
def nested : List Action :=
  [.start 0 1, .acquire 0, .release 0, .start 1 2, .acquire 1, .release 1, .exit 1, .exit 2,
    .waitAcquire, .join, .join]

theorem wait_all_is_orderly_nested : ∃ s s', handleList.schedule mainOnly nested = some s ∧
    handleList.step s .waitReturn = some s' ∧ s'.spawned = [1, 2] ∧
    ∀ c ∈ s'.spawned, s'.thread c = .finished := by
  have h : handleList.schedule mainOnly nested = some _ := rfl
  have hok : handleList.Admits Orderly mainOnly nested := by
    refine ⟨nofun, trivial, trivial, nofun, trivial, trivial, trivial, trivial, ?_, trivial,
      trivial, trivial⟩
    rintro (_ | _ | _ | p) ⟨c, hc | hc⟩ <;> cases hc
  exact ⟨_, _, h, rfl, rfl,
    (wait_all_is_orderly (Protocol.reachableWhen_of_schedule init_mainOnly h hok)).2 _ rfl⟩

/-- Thread 1 spawns thread 2 after the wait has taken the lock. -/
def lateSpawn : List Action :=
  [.start 0 1, .acquire 0, .release 0, .waitAcquire, .start 1 2]

/-- **A nested spawn deadlocks the wait.** The main thread joins thread 1 with the lock held, and
thread 1 is blocked acquiring it. -/
theorem nested_spawn_deadlocks :
    ∃ s, handleList.schedule mainOnly lateSpawn = some s ∧ handleList.Reachable s ∧
      Deadlocked s := by
  have h : handleList.schedule mainOnly lateSpawn = some _ := rfl
  exact ⟨_, h, Protocol.reachable_of_schedule init_mainOnly h, rfl, 1, [], 2, rfl, rfl⟩

end Kryos.Runtime.Spawn
