import Kryos.Lib.Interleaving
import Mathlib.Data.List.Cycle
import Mathlib.Data.Finset.Insert

/-!
# The closure-call lock and its deadlock detector

Every call of a closure that mutates its captures is bracketed by `kryos_closure_lock_acquire` and
`kryos_closure_lock_release` on the closure's lock word. The word itself is a spinlock; beside it
the runtime keeps a wait-for graph, behind a mutex of its own, in which a blocked thread looks for
a chain of waits that leads back to itself and panics when it finds one.

The graph is updated apart from the word: a thread is entered as waiting before it spins and as
owner after its compare-and-swap, and it is removed as owner before it clears the word. A state
therefore has a control point for every window between these steps. An action is one access to the
thread's own set of held locks, one compare-and-swap, one critical section of the graph, or the
store that clears the word. A compare-and-swap that fails changes nothing, so only the successful
one is an action. A panic ends the process: afterwards no action is enabled.

## Main results

* `ClosureLock.Inv.step` — one step keeps the graph in step with the words: an owner entry is
  always true, and a waiting entry is false only while the word has no owner entry
* `ClosureLock.detector_is_exact` — a word has at most one holder, a reported chain is a circular
  wait that no continuation resolves, and every circular wait within the hop limit is reported
-/

namespace Kryos.Runtime.ClosureLock

/-- `CLOSURE_LOCK_CYCLE_HOP_LIMIT`. -/
def closureLockCycleHopLimit : ℕ := 4096

/-- One hop of a reported chain: the blocked thread, the lock it wants and the lock's owner. -/
structure Hop where
  blocked : ℕ
  wants : ℕ
  holder : ℕ
  deriving DecidableEq, Repr

/-- Where a thread stands. -/
inductive Point where
  /-- outside the two functions -/
  | running
  /-- in acquire: entered in its own set of held locks -/
  | entering (key : ℕ)
  /-- in acquire: entered in the graph as waiting, in the spin loop -/
  | spinning (key : ℕ)
  /-- in acquire: the compare-and-swap has succeeded -/
  | acquired (key : ℕ)
  /-- in release: removed from its own set of held locks -/
  | releasing (key : ℕ)
  /-- in release: removed from the graph as owner -/
  | unlocking (key : ℕ)
  deriving DecidableEq, Repr

/-- Why the process has panicked. -/
inductive Fault where
  | reentrant (thread key : ℕ)
  | deadlock (chain : List Hop)
  deriving DecidableEq, Repr

structure State where
  /-- the lock words -/
  locked : ℕ → Bool
  /-- the graph: lock to the thread that holds it -/
  owners : ℕ → Option ℕ
  /-- the graph: thread to the lock it is blocked on -/
  waiting : ℕ → Option ℕ
  /-- each thread's own `HELD_CLOSURE_LOCKS` -/
  held : ℕ → Finset ℕ
  point : ℕ → Point
  fault : Option Fault

/-- Follow the graph from `curThread`, blocked on `curKey`, for at most the given number of hops;
the chain walked if it comes back to `tid`. -/
def followChain (owners waiting : ℕ → Option ℕ) (tid : ℕ) :
    ℕ → ℕ → ℕ → List Hop → Option (List Hop)
  | 0, _, _, _ => none
  | n + 1, curThread, curKey, steps =>
    match owners curKey with
    | none => none
    | some holder =>
      let steps := steps ++ [⟨curThread, curKey, holder⟩]
      if holder = tid then some steps
      else
        match waiting holder with
        | none => none
        | some key => followChain owners waiting tid n holder key steps

/-- `check_closure_deadlock`: the chain it panics with, if any. -/
def checkClosureDeadlock (s : State) (tid waitingForKey : ℕ) : Option (List Hop) :=
  followChain s.owners s.waiting tid closureLockCycleHopLimit tid waitingForKey []

inductive Action where
  | acquire (t key : ℕ)
  | register (t : ℕ)
  | compareAndSwap (t : ℕ)
  | check (t : ℕ)
  | own (t : ℕ)
  | release (t key : ℕ)
  | disown (t : ℕ)
  | unlock (t : ℕ)
  deriving DecidableEq, Repr

/-- Move a thread to another control point. -/
def State.move (s : State) (t : ℕ) (p : Point) : State :=
  { s with point := Function.update s.point t p }

/-- One atomic step of a process that has not panicked. -/
def advance (s : State) : Action → Option State
  | .acquire t key =>
    if s.point t = .running then
      if key ∈ s.held t then some { s with fault := some (.reentrant t key) }
      else some { s.move t (.entering key) with
        held := Function.update s.held t (insert key (s.held t)) }
    else none
  | .register t =>
    match s.point t with
    | .entering key => some { s.move t (.spinning key) with
        waiting := Function.update s.waiting t (some key) }
    | _ => none
  | .compareAndSwap t =>
    match s.point t with
    | .spinning key =>
      if s.locked key then none
      else some { s.move t (.acquired key) with locked := Function.update s.locked key true }
    | _ => none
  | .check t =>
    match s.point t with
    | .spinning key =>
      match checkClosureDeadlock s t key with
      | some chain => some { s with fault := some (.deadlock chain) }
      | none => some s
    | _ => none
  | .own t =>
    match s.point t with
    | .acquired key => some { s.move t .running with
        waiting := Function.update s.waiting t none
        owners := Function.update s.owners key (some t) }
    | _ => none
  | .release t key =>
    if s.point t = .running ∧ key ∈ s.held t then
      some { s.move t (.releasing key) with
        held := Function.update s.held t ((s.held t).erase key) }
    else none
  | .disown t =>
    match s.point t with
    | .releasing key => some { s.move t (.unlocking key) with
        owners := Function.update s.owners key none }
    | _ => none
  | .unlock t =>
    match s.point t with
    | .unlocking key => some { s.move t .running with
        locked := Function.update s.locked key false }
    | _ => none

def step (s : State) (a : Action) : Option State :=
  if s.fault = none then advance s a else none

/-- No lock taken, no thread in either function. -/
def initial : State where
  locked _ := false
  owners _ := none
  waiting _ := none
  held _ := ∅
  point _ := .running
  fault := none

/-- The closure locks under any interleaving of any number of threads. -/
def closureLocks : Protocol State Action where
  Init := (· = initial)
  step := step

/-! ## Holding and waiting -/

/-- The thread holds the lock word: its compare-and-swap has succeeded and it has not cleared the
word. The key enters the thread's own set before the spin loop and leaves it at the start of the
release. -/
def Holds (s : State) (t key : ℕ) : Prop :=
  (key ∈ s.held t ∧ s.point t ≠ .entering key ∧ s.point t ≠ .spinning key) ∨
    s.point t = .releasing key ∨ s.point t = .unlocking key

/-- Thread `t` is in its spin loop for a lock that `u` holds. -/
def WaitsFor (s : State) (t u : ℕ) : Prop :=
  ∃ key, s.point t = .spinning key ∧ Holds s u key

/-- A circular wait: every thread of the cycle waits for the next. -/
def CircularWait (s : State) (c : Cycle ℕ) : Prop :=
  c ≠ Cycle.nil ∧ c.Chain (WaitsFor s)

/-! ## The invariant -/

/-- How the words, the sets and the graph are related in every window. -/
structure Inv (s : State) : Prop where
  held_entering : ∀ t key, s.point t = .entering key ∨ s.point t = .spinning key ∨
    s.point t = .acquired key → key ∈ s.held t
  held_releasing : ∀ t key, s.point t = .releasing key ∨ s.point t = .unlocking key →
    key ∉ s.held t
  locked_of_holds : ∀ t key, Holds s t key → s.locked key = true
  holds_unique : ∀ t u key, Holds s t key → Holds s u key → t = u
  owners_iff : ∀ t key, s.owners key = some t ↔
    Holds s t key ∧ s.point t ≠ .acquired key ∧ s.point t ≠ .unlocking key
  waiting_iff : ∀ t key, s.waiting t = some key ↔
    s.point t = .spinning key ∨ s.point t = .acquired key

theorem inv_initial : Inv initial := by
  constructor <;> simp [initial, Holds]

variable {s s' : State} {a : Action}

theorem Inv.advance (hs : Inv s) (h : advance s a = some s') : Inv s' := by
  obtain ⟨h1, h2, h3, h4, h5, h6⟩ := hs
  rcases a with ⟨t, key⟩ | t | t | t | t | ⟨t, key⟩ | t | t <;>
    simp only [ClosureLock.advance, State.move, Holds] at *
  · split_ifs at h
    · obtain rfl := Option.some.inj h
      constructor <;> assumption
    · obtain rfl := Option.some.inj h
      clear h
      constructor <;> simp only [Function.update_apply, Holds] <;> grind
  · split at h
    · obtain rfl := Option.some.inj h
      clear h
      constructor <;> simp only [Function.update_apply, Holds] <;> grind
    · exact absurd h (by simp)
  · split at h
    · split_ifs at h
      obtain rfl := Option.some.inj h
      clear h
      constructor <;> simp only [Function.update_apply, Holds] <;> grind
    · exact absurd h (by simp)
  · split at h
    · split at h <;> obtain rfl := Option.some.inj h <;> constructor <;> assumption
    · exact absurd h (by simp)
  · split at h
    · obtain rfl := Option.some.inj h
      clear h
      constructor <;> simp only [Function.update_apply, Holds] <;> grind
    · exact absurd h (by simp)
  · split_ifs at h
    obtain rfl := Option.some.inj h
    clear h
    constructor <;> simp only [Function.update_apply, Holds] <;> grind
  · split at h
    · obtain rfl := Option.some.inj h
      clear h
      constructor <;> simp only [Function.update_apply, Holds] <;> grind
    · exact absurd h (by simp)
  · split at h
    · obtain rfl := Option.some.inj h
      clear h
      constructor <;> simp only [Function.update_apply, Holds] <;> grind
    · exact absurd h (by simp)

/-- **One step preserves the invariant**, a panic included. -/
theorem Inv.step (hs : Inv s) (h : step s a = some s') : Inv s' := by
  unfold ClosureLock.step at h
  split_ifs at h
  exact hs.advance h

theorem inv_of_reachable (h : closureLocks.Reachable s) : Inv s :=
  h.invariant (fun _ h₀ => h₀ ▸ inv_initial) fun _ _ _ hs _ hst => hs.step hst

/-! ## A reported chain is real -/

/-- The hop is true of the threads themselves. -/
def Hop.Real (s : State) (hop : Hop) : Prop :=
  s.point hop.blocked = .spinning hop.wants ∧ Holds s hop.holder hop.wants

/-- The hops lead from the first thread to the second. -/
inductive Walk (s : State) (tid : ℕ) : ℕ → List Hop → Prop where
  | last {cur key : ℕ} : Hop.Real s ⟨cur, key, tid⟩ → Walk s tid cur [⟨cur, key, tid⟩]
  | hop {cur key next : ℕ} {rest : List Hop} : Hop.Real s ⟨cur, key, next⟩ →
      Walk s tid next rest → Walk s tid cur (⟨cur, key, next⟩ :: rest)

variable {t : ℕ}

variable {key : ℕ}

/-- A waiting entry whose lock has an owner entry is true: in the window in which it is not, the
lock has no owner entry. -/
theorem Inv.real_of_entries (hs : Inv s) {u : ℕ} (hw : s.waiting t = some key)
    (ho : s.owners key = some u) : Hop.Real s ⟨t, key, u⟩ := by
  obtain ⟨hu, hacq, -⟩ := (hs.owners_iff u key).mp ho
  refine ⟨?_, hu⟩
  rcases (hs.waiting_iff t key).mp hw with hspin | hcas
  · exact hspin
  · have ht : Holds s t key := .inl ⟨hs.held_entering t key (.inr (.inr hcas)), by simp [hcas]⟩
    obtain rfl := hs.holds_unique t u key ht hu
    exact absurd hcas hacq

variable {chain : List Hop}

variable {tid cur : ℕ}

theorem Inv.walk_of_followChain (hs : Inv s) (n : ℕ) {steps : List Hop}
    (hw : s.waiting cur = some key)
    (h : followChain s.owners s.waiting tid n cur key steps = some chain) :
    ∃ rest, chain = steps ++ rest ∧ Walk s tid cur rest := by
  induction n generalizing cur key steps with
  | zero => simp [followChain] at h
  | succ n ih =>
    rw [followChain] at h
    rcases ho : s.owners key with _ | holder
    · simp [ho] at h
    · have hreal := hs.real_of_entries hw ho
      simp only [ho] at h
      split_ifs at h with hback
      · subst hback
        exact ⟨[⟨cur, key, holder⟩], (Option.some.inj h).symm, .last hreal⟩
      · rcases hnext : s.waiting holder with _ | key'
        · simp [hnext] at h
        · simp only [hnext] at h
          obtain ⟨rest, rfl, hwalk⟩ := ih hnext h
          exact ⟨⟨cur, key, holder⟩ :: rest, by simp, .hop hreal hwalk⟩

theorem Walk.blocked_head (h : Walk s tid cur chain) : ∃ l, chain.map Hop.blocked = cur :: l := by
  rcases h with _ | _ <;> simp

theorem Walk.isChain (h : Walk s tid cur chain) :
    List.IsChain (WaitsFor s) (chain.map Hop.blocked ++ [tid]) := by
  induction h with
  | last hreal => simpa using ⟨_, hreal⟩
  | @hop cur key next rest hreal hwalk ih =>
    obtain ⟨l, hl⟩ := hwalk.blocked_head
    have hwait : WaitsFor s cur next := ⟨key, hreal⟩
    simp only [List.map_cons, hl, List.cons_append] at ih ⊢
    exact ih.cons_cons hwait

theorem Walk.real (h : Walk s tid cur chain) :
    ∀ hop ∈ chain, Hop.Real s hop ∧ (hop.holder = tid ∨ hop.holder ∈ chain.map Hop.blocked) := by
  induction h with
  | last hreal => simpa using hreal
  | @hop cur key next rest hreal hwalk ih =>
    obtain ⟨l, hl⟩ := hwalk.blocked_head
    intro hop hmem
    rcases List.mem_cons.mp hmem with rfl | hmem
    · exact ⟨hreal, .inr (by simp [hl])⟩
    · obtain ⟨hr, hh⟩ := ih hop hmem
      exact ⟨hr, hh.imp_right fun h => by simp only [List.map_cons, List.mem_cons, h, or_true]⟩

/-- A walk that comes back to its start is a circular wait. -/
theorem Walk.circularWait (h : Walk s tid tid chain) : CircularWait s (chain.map Hop.blocked) := by
  obtain ⟨l, hl⟩ := h.blocked_head
  refine ⟨by simp [hl], ?_⟩
  have hchain := h.isChain
  rw [hl] at hchain ⊢
  exact (Cycle.chain_coe_cons _ _ _).mpr hchain

/-! ## A circular wait is never resolved -/

variable {c : Cycle ℕ}

/-- A thread of a cycle can be taken as its first. -/
theorem exists_cons_of_mem_cycle (h : t ∈ c) : ∃ l : List ℕ, c = ((t :: l : List ℕ) : Cycle ℕ) := by
  induction c using Quotient.inductionOn' with
  | h l =>
    obtain ⟨l₁, l₂, rfl⟩ := List.append_of_mem (Cycle.mem_coe_iff.mp h)
    exact ⟨l₂ ++ l₁, Cycle.coe_eq_coe.mpr (List.isRotated_append)⟩

theorem CircularWait.next (hc : CircularWait s c) (ht : t ∈ c) : ∃ u ∈ c, WaitsFor s t u := by
  obtain ⟨l, rfl⟩ := exists_cons_of_mem_cycle ht
  have hchain := (Cycle.chain_coe_cons _ _ _).mp hc.2
  rcases l with _ | ⟨u, l⟩
  · exact ⟨t, by simp, by simpa using hchain⟩
  · exact ⟨u, by simp, hchain.rel⟩

/-- The thread whose step it is. -/
def Action.thread : Action → ℕ
  | .acquire t _ | .register t | .compareAndSwap t | .check t => t
  | .own t | .release t _ | .disown t | .unlock t => t

/-- A step moves no thread but its own. -/
theorem advance_frame (h : advance s a = some s') (ht : t ≠ a.thread) :
    s'.point t = s.point t ∧ s'.held t = s.held t := by
  rcases a with ⟨v, k⟩ | v | v | v | v | ⟨v, k⟩ | v | v <;>
    simp only [Action.thread] at ht <;> simp only [ClosureLock.advance, State.move] at h
  · split_ifs at h <;> obtain rfl := Option.some.inj h <;> simp [ht]
  · split at h
    · obtain rfl := Option.some.inj h
      simp [ht]
    · exact absurd h (by simp)
  · split at h
    · split_ifs at h
      obtain rfl := Option.some.inj h
      simp [ht]
    · exact absurd h (by simp)
  · split at h
    · split at h <;> obtain rfl := Option.some.inj h <;> simp
    · exact absurd h (by simp)
  · split at h
    · obtain rfl := Option.some.inj h
      simp [ht]
    · exact absurd h (by simp)
  · split_ifs at h
    obtain rfl := Option.some.inj h
    simp [ht]
  · split at h
    · obtain rfl := Option.some.inj h
      simp [ht]
    · exact absurd h (by simp)
  · split at h
    · obtain rfl := Option.some.inj h
      simp [ht]
    · exact absurd h (by simp)

/-- All a thread can do while the word it spins for is set is to check. -/
theorem advance_spinning (h : advance s a = some s') (hspin : s.point a.thread = .spinning key)
    (hlocked : s.locked key = true) : s'.point = s.point ∧ s'.held = s.held := by
  rcases a with ⟨v, k⟩ | v | v | v | v | ⟨v, k⟩ | v | v <;>
    simp only [Action.thread] at hspin <;>
    simp only [ClosureLock.advance, hspin, hlocked, reduceCtorEq, false_and, if_true, if_false] at h
  split at h <;> obtain rfl := Option.some.inj h <;> exact ⟨rfl, rfl⟩

/-- The threads of the cycle are where they were in `s₀`, holding what they held. -/
structure Frozen (s₀ : State) (c : Cycle ℕ) (s : State) : Prop where
  inv : Inv s
  point : ∀ t ∈ c, s.point t = s₀.point t
  held : ∀ t ∈ c, s.held t = s₀.held t

theorem Frozen.locked {s₀ : State} (hf : Frozen s₀ c s) {u : ℕ} (hu : u ∈ c) (h : Holds s₀ u key) :
    s.locked key = true := by
  refine hf.inv.locked_of_holds u key ?_
  unfold Holds at h ⊢
  rwa [hf.point u hu, hf.held u hu]

/-- **No step moves a thread of a circular wait.** The word it spins for is held by the next thread
of the cycle, which does not move either. -/
theorem Frozen.step {s₀ : State} (hc : CircularWait s₀ c) (hf : Frozen s₀ c s)
    (h : step s a = some s') : Frozen s₀ c s' := by
  have hframe : ∀ t ∈ c, s'.point t = s.point t ∧ s'.held t = s.held t := by
    intro t ht
    unfold ClosureLock.step at h
    split_ifs at h
    by_cases hta : t = a.thread
    · obtain ⟨u, hu, key, hspin, hholds⟩ := hc.next ht
      rw [← hf.point t ht, hta] at hspin
      obtain ⟨hp, hh⟩ := advance_spinning h hspin (hf.locked hu hholds)
      rw [hp, hh]
      exact ⟨rfl, rfl⟩
    · exact advance_frame h hta
  refine ⟨hf.inv.step h, fun t ht => ?_, fun t ht => ?_⟩
  · rw [(hframe t ht).1, hf.point t ht]
  · rw [(hframe t ht).2, hf.held t ht]

theorem CircularWait.stuck (hs : Inv s) (hc : CircularWait s c) (hrun : closureLocks.Run s s')
    (ht : t ∈ c) : s'.point t = s.point t := by
  have hf : Frozen s c s' := hrun.invariant (fun _ _ _ hf _ hst => hf.step hc hst)
    ⟨hs, fun _ _ => rfl, fun _ _ => rfl⟩
  exact hf.point t ht

/-! ## Every circular wait is reported -/

/-- A thread that spins has completed its earlier acquisitions, so its locks have owner entries. -/
theorem Inv.owner_of_holds (hs : Inv s) {u key' : ℕ} (h : Holds s u key)
    (hspin : s.point u = .spinning key') : s.owners key = some u :=
  (hs.owners_iff u key).mpr ⟨h, by simp [hspin], by simp [hspin]⟩

theorem Inv.followChain_isSome (hs : Inv s) (htid : ∃ key, s.point tid = .spinning key) (l : List ℕ)
    : ∀ {n cur key : ℕ} (steps : List Hop), l.length < n →
    List.IsChain (WaitsFor s) (cur :: (l ++ [tid])) → s.point cur = .spinning key →
    (followChain s.owners s.waiting tid n cur key steps).isSome := by
  induction l with
  | nil =>
    intro n cur key steps hn hchain hcur
    obtain ⟨n, rfl⟩ := Nat.exists_eq_add_one_of_ne_zero (by omega : n ≠ 0)
    obtain ⟨key', hspin, hholds⟩ : WaitsFor s cur tid := by simpa using hchain
    obtain rfl : key = key' := by simpa [hcur] using hspin
    obtain ⟨k, hk⟩ := htid
    simp [followChain, hs.owner_of_holds hholds hk]
  | cons u l ih =>
    intro n cur key steps hn hchain hcur
    obtain ⟨n, rfl⟩ := Nat.exists_eq_add_one_of_ne_zero (by omega : n ≠ 0)
    obtain ⟨key', hspin, hholds⟩ : WaitsFor s cur u := hchain.rel
    obtain rfl : key = key' := by simpa [hcur] using hspin
    have htail : List.IsChain (WaitsFor s) (u :: (l ++ [tid])) := hchain.tail
    obtain ⟨k, hk⟩ : ∃ k, s.point u = .spinning k := by
      rcases l with _ | ⟨v, l⟩
      · obtain ⟨k, hk, -⟩ : WaitsFor s u tid := by simpa using htail
        exact ⟨k, hk⟩
      · obtain ⟨k, hk, -⟩ : WaitsFor s u v := htail.rel
        exact ⟨k, hk⟩
    rw [followChain, hs.owner_of_holds hholds hk]
    by_cases hback : u = tid
    · simp [hback]
    · simp only [hback, if_false, (hs.waiting_iff u k).mpr (.inl hk)]
      exact ih _ (by simpa using hn) htail hk

/-- A check panics exactly with the chain it has found. -/
theorem check_faults_iff :
    (∃ r, step s (.check t) = some r ∧ r.fault = some (.deadlock chain)) ↔
      s.fault = none ∧ ∃ key, s.point t = .spinning key ∧
        checkClosureDeadlock s t key = some chain := by
  by_cases hnone : s.fault = none
  · rcases hp : s.point t with _ | _ | key | _ | _ | _
    case spinning =>
      rcases hc : checkClosureDeadlock s t key with _ | found <;>
        simp [ClosureLock.step, ClosureLock.advance, hnone, hp, hc]
    all_goals simp [ClosureLock.step, ClosureLock.advance, hnone, hp]
  · simp [ClosureLock.step, hnone]

theorem Inv.reported_is_real (hs : Inv s) (hspin : s.point t = .spinning key)
    (h : checkClosureDeadlock s t key = some chain) : Walk s t t chain := by
  obtain ⟨rest, rfl, hwalk⟩ :=
    hs.walk_of_followChain closureLockCycleHopLimit ((hs.waiting_iff t key).mpr (.inl hspin)) h
  simpa using hwalk

theorem Inv.circularWait_is_reported (hs : Inv s) (hc : CircularWait s c)
    (hlen : c.length ≤ closureLockCycleHopLimit) (ht : t ∈ c) :
    ∃ key chain, s.point t = .spinning key ∧ checkClosureDeadlock s t key = some chain := by
  obtain ⟨u, -, key, hspin, -⟩ := hc.next ht
  obtain ⟨l, rfl⟩ := exists_cons_of_mem_cycle ht
  have hchain := (Cycle.chain_coe_cons _ _ _).mp hc.2
  have hlt : l.length < closureLockCycleHopLimit := by
    rw [Cycle.length_coe, List.length_cons] at hlen
    omega
  have hsome := hs.followChain_isSome ⟨key, hspin⟩ l [] hlt hchain hspin
  obtain ⟨chain, hchain⟩ := Option.isSome_iff_exists.mp hsome
  exact ⟨key, chain, hspin, hchain⟩

/-- **The deadlock detector is exact.** In every state that any interleaving reaches: a lock word
has at most one holder and is set while it has one; whenever a check panics, the threads of the
reported chain form a circular wait through the checking thread, every hop names a thread in its
spin loop, the lock it spins for and the holder of that lock, which is on the chain too, and in
every continuation all of them stay in these spin loops; and a check by any thread of a circular
wait within the hop limit panics. -/
theorem detector_is_exact (h : closureLocks.Reachable s) :
    (∀ t u key, Holds s t key → Holds s u key → t = u) ∧
    (∀ t key, Holds s t key → s.locked key = true) ∧
    (∀ t r chain, closureLocks.step s (.check t) = some r → r.fault = some (.deadlock chain) →
      CircularWait s (chain.map Hop.blocked) ∧ t ∈ chain.map Hop.blocked ∧
      (∀ hop ∈ chain, s.point hop.blocked = .spinning hop.wants ∧ Holds s hop.holder hop.wants ∧
        hop.holder ∈ chain.map Hop.blocked) ∧
      ∀ s', closureLocks.Run s s' → ∀ hop ∈ chain, s'.point hop.blocked = .spinning hop.wants) ∧
    (∀ c : Cycle ℕ, s.fault = none → CircularWait s c → c.length ≤ closureLockCycleHopLimit →
      ∀ t ∈ c, ∃ r chain, closureLocks.step s (.check t) = some r ∧
        r.fault = some (.deadlock chain)) := by
  have hs := inv_of_reachable h
  refine ⟨hs.holds_unique, hs.locked_of_holds, fun t r chain hst hfault => ?_,
    fun c hnone hc hlen t ht => ?_⟩
  · obtain ⟨-, key, hspin, hcheck⟩ := check_faults_iff.mp ⟨r, hst, hfault⟩
    have hwalk := hs.reported_is_real hspin hcheck
    have hmem : t ∈ chain.map Hop.blocked := by
      obtain ⟨l, hl⟩ := hwalk.blocked_head
      simp [hl]
    refine ⟨hwalk.circularWait, hmem, fun hop hhop => ?_, fun s' hrun hop hhop => ?_⟩
    · obtain ⟨⟨hblocked, hholds⟩, hholder⟩ := hwalk.real hop hhop
      exact ⟨hblocked, hholds, hholder.elim (fun h => h ▸ hmem) fun h => h⟩
    · rw [hwalk.circularWait.stuck hs hrun (Cycle.mem_coe_iff.mpr (List.mem_map_of_mem hhop))]
      exact (hwalk.real hop hhop).1.1
  · obtain ⟨key, chain, hspin, hcheck⟩ := hs.circularWait_is_reported hc hlen ht
    obtain ⟨r, hst, hfault⟩ := check_faults_iff.mpr ⟨hnone, key, hspin, hcheck⟩
    exact ⟨r, chain, hst, hfault⟩

/-- Threads 0 and 1 each hold one lock and spin for the other's. -/
def crossed : List Action :=
  [.acquire 0 10, .register 0, .compareAndSwap 0, .own 0, .acquire 1 11, .register 1,
    .compareAndSwap 1, .own 1, .acquire 0 11, .register 0, .acquire 1 10, .register 1]

theorem detector_is_exact_crossed : ∃ s, closureLocks.schedule initial crossed = some s ∧
    ∃ r chain, closureLocks.step s (.check 0) = some r ∧ r.fault = some (.deadlock chain) := by
  have h : closureLocks.schedule initial crossed = some _ := rfl
  have hexact := detector_is_exact (Protocol.reachable_of_schedule rfl h)
  refine ⟨_, h, hexact.2.2.2 ([0, 1] : List ℕ) rfl ⟨by simp, ?_⟩ (by decide) 0 (by simp)⟩
  rw [Cycle.chain_coe_cons]
  refine .cons_cons ⟨11, rfl, .inl ⟨?_, nofun, nofun⟩⟩ <|
    .cons_cons ⟨10, rfl, .inl ⟨?_, nofun, nofun⟩⟩ (.singleton 0)
  · decide
  · decide

end Kryos.Runtime.ClosureLock
