import Mathlib
import Kryos.Lib.Interleaving

/-!
# The wait group over channels

A `ChanWaitGroup` keeps its counter in a shared cell. The channel `lock_ch` holds one token and
serves as the mutex of the cell, and `wg_done` closes `done_ch` when it brings the counter to zero,
which releases every `wg_wait`.

A step is one channel operation or one access of the cell; there may be any number of threads, each
with any sequence of calls. Units of work are numbered in the order in which they are added, and
every `wg_done` names the unit it completes: one that was added before and that no other `wg_done`
has taken. What a `wg_wait` has to wait for are the units added when it is called.

A closed channel stays closed while the counter can become positive again. The guarantees hold in
the runs in which no unit is added once a `wg_done` has brought the counter to zero.

## Main results

* `WaitGroup.waits_for_all_work` — the guarantees, in those runs
* `WaitGroup.reused_group_returns_early` — a second round of work that nobody waits for
-/

namespace Kryos.Stdlib.WaitGroup

/-- `i64` arithmetic. -/
def wrap (z : ℤ) : ℤ := Int.bmod z (2 ^ 64)

/-- Where a thread stands: its call and the next step of it. -/
inductive Point where
  | idle
  | addLock (n : ℤ)
  | addRead (n : ℤ)
  | addWrite (n c : ℤ)
  | addUnlock
  | doneLock (u : ℕ)
  | doneRead (u : ℕ)
  | doneWrite (u : ℕ) (c : ℤ)
  | doneUnlock (newCount : ℤ)
  /-- `wg_done` has found the counter at zero and is about to close `done_ch` -/
  | closing
  /-- the assertion of `wg_done` has failed -/
  | aborted
  | waitLock (k : ℕ)
  | waitRead (k : ℕ)
  | waitUnlock (k : ℕ) (c : ℤ)
  /-- `wg_wait` is at its `recv` from `done_ch` -/
  | parked (k : ℕ)
  /-- `wg_wait` has returned; it was called when `k` units were added -/
  | returned (k : ℕ)
  deriving DecidableEq, Repr

/-- The group and the threads that use it. -/
structure State where
  /-- the tokens in `lock_ch` -/
  tokens : ℕ
  count : ℤ
  /-- `done_ch` is closed -/
  closed : Bool
  /-- the units added so far -/
  added : ℕ
  /-- the units for which `wg_done` has been called -/
  taken : Finset ℕ
  /-- the units for which `wg_done` has updated the counter -/
  completed : Finset ℕ
  /-- the sum of all updates of the counter -/
  net : ℤ
  thread : ℕ → Point

inductive Action where
  | wgAdd (i : ℕ) (n : ℤ)
  | wgDone (i u : ℕ)
  | wgWait (i : ℕ)
  /-- the next step of the call of thread `i` -/
  | run (i : ℕ)
  deriving DecidableEq, Repr

/-- The thread is between two calls. -/
def Point.isFree : Point → Bool
  | .idle | .returned _ => true
  | _ => false

def State.move (s : State) (i : ℕ) (p : Point) : State :=
  { s with thread := Function.update s.thread i p }

/-- `recv(wg.lock_ch.raw)`. -/
def State.lock (s : State) (i : ℕ) (p : Point) : Option State :=
  if s.tokens = 0 then none else some { s.move i p with tokens := s.tokens - 1 }

/-- `send(wg.lock_ch.raw, 1)`. -/
def State.unlock (s : State) (i : ℕ) (p : Point) : State :=
  { s.move i p with tokens := s.tokens + 1 }

/-- What `wg_done` does after it has released the lock. -/
def afterDone (newCount : ℤ) : Point :=
  if newCount < 0 then .aborted else if newCount = 0 then .closing else .idle

/-- What `wg_wait` does after it has released the lock. -/
def afterRead (k : ℕ) (c : ℤ) : Point :=
  if c ≤ 0 then .returned k else .parked k

/-- The next step of thread `i`, `none` where it is blocked or not in a call. -/
def State.next (s : State) (i : ℕ) : Option State :=
  match s.thread i with
  | .idle | .aborted | .returned _ => none
  | .addLock n => s.lock i (.addRead n)
  | .addRead n => some (s.move i (.addWrite n s.count))
  | .addWrite n c => some { s.move i .addUnlock with
      count := wrap (c + n), added := s.added + n.toNat, net := s.net + n }
  | .addUnlock => some (s.unlock i .idle)
  | .doneLock u => s.lock i (.doneRead u)
  | .doneRead u => some (s.move i (.doneWrite u s.count))
  | .doneWrite u c => some { s.move i (.doneUnlock (wrap (c - 1))) with
      count := wrap (c - 1), completed := insert u s.completed, net := s.net - 1 }
  | .doneUnlock c => some (s.unlock i (afterDone c))
  | .closing => some { s.move i .idle with closed := true }
  | .waitLock k => s.lock i (.waitRead k)
  | .waitRead k => some (s.move i (.waitUnlock k s.count))
  | .waitUnlock k c => some (s.unlock i (afterRead k c))
  | .parked k => if s.closed then some (s.move i (.returned k)) else none

def step (s : State) : Action → Option State
  | .wgAdd i n => if (s.thread i).isFree then some (s.move i (.addLock n)) else none
  | .wgDone i u =>
    if (s.thread i).isFree ∧ u < s.added ∧ u ∉ s.taken then
      some { s.move i (.doneLock u) with taken := insert u s.taken }
    else none
  | .wgWait i => if (s.thread i).isFree then some (s.move i (.waitLock s.added)) else none
  | .run i => s.next i

/-- `new_wait_group`. -/
def initial : State where
  tokens := 1
  count := 0
  closed := false
  added := 0
  taken := ∅
  completed := ∅
  net := 0
  thread _ := .idle

def group : Protocol State Action where
  Init := (· = initial)
  step := step

/-! ## The guarantees -/

/-- The call has brought the counter to zero and not yet closed `done_ch`. -/
def Point.isPending : Point → Bool
  | .doneUnlock c => c = 0
  | .closing => true
  | _ => false

/-- The counter is at zero, a thread is parked in `wg_wait`, and nobody will close `done_ch`. -/
def Stranded (s : State) : Prop :=
  s.count = 0 ∧ (∃ i k, s.thread i = .parked k) ∧ s.closed = false ∧
    ∀ j, (s.thread j).isPending = false

/-- What a wait group promises: a `wg_wait` that has returned has seen the units completed that were
added when it was called, the counter is the sum of all updates, and no waiter is stranded. -/
structure Waits (s : State) : Prop where
  returned : ∀ i k, s.thread i = .returned k → ∀ u < k, u ∈ s.completed
  no_lost_update : s.count = wrap s.net
  not_stranded : ¬ Stranded s

/-- The steps that add no unit after a `wg_done` has brought the counter to zero, no negative
number of units, and not more units than the counter can hold. -/
def OneRound (s : State) : Action → Prop
  | .run i => ∀ n c, s.thread i = .addWrite n c →
      s.closed = false ∧ (∀ j, (s.thread j).isPending = false) ∧ 0 ≤ n ∧ s.count + n < 2 ^ 63
  | _ => True

/-! ## The invariant -/

/-- The thread holds the token of `lock_ch`. -/
def Point.inside : Point → Bool
  | .addRead _ | .addWrite _ _ | .addUnlock | .doneRead _ | .doneWrite _ _ | .doneUnlock _
  | .waitRead _ | .waitUnlock _ _ => true
  | _ => false

/-- The value of the counter that the thread has read or written under the lock. -/
def Point.seen : Point → Option ℤ
  | .addWrite _ c | .doneWrite _ c | .doneUnlock c | .waitUnlock _ c => some c
  | _ => none

/-- The unit that the thread is about to complete. -/
def Point.unit : Point → Option ℕ
  | .doneLock u | .doneRead u | .doneWrite u _ => some u
  | _ => none

/-- The number of units that the `wg_wait` of the thread waits for. -/
def Point.awaited : Point → Option ℕ
  | .waitLock k | .waitRead k | .waitUnlock k _ | .parked k | .returned k => some k
  | _ => none

/-- Every unit added is completed. -/
def State.Finished (s : State) : Prop := s.completed.card = s.added

/-- The lock excludes, the counter is the number of units not completed, `done_ch` is closed or
about to be closed only when all units are completed, and what a `wg_wait` has seen is true. -/
structure Inv (s : State) : Prop where
  one : s.tokens ≤ 1
  tokens : ∀ i, (s.thread i).inside = true → s.tokens = 0
  unique : ∀ i j, (s.thread i).inside = true → (s.thread j).inside = true → i = j
  seen : ∀ i c, (s.thread i).seen = some c → c = s.count
  count : s.count = s.added - s.completed.card
  small : s.count < 2 ^ 63
  net : s.net = s.count
  taken : s.taken ⊆ Finset.range s.added
  completed : s.completed ⊆ s.taken
  unit : ∀ i u, (s.thread i).unit = some u → u ∈ s.taken ∧ u ∉ s.completed
  own_unit : ∀ i j u, (s.thread i).unit = some u → (s.thread j).unit = some u → i = j
  finished : s.closed = true ∨ (∃ i, (s.thread i).isPending = true) → s.Finished
  awaited : ∀ i k, (s.thread i).awaited = some k → k ≤ s.added
  parked : ∀ i k, s.thread i = .parked k → 0 < s.added
  returned : ∀ i k, s.thread i = .returned k → ∀ u < k, u ∈ s.completed
  alive : 0 < s.added → s.count = 0 → s.closed = true ∨ ∃ i, (s.thread i).isPending = true

theorem inv_initial : Inv initial where
  one := le_rfl
  tokens _ h := by cases h
  unique _ _ h := by cases h
  seen _ _ h := by cases h
  count := rfl
  small := by decide
  net := rfl
  taken := by simp [initial]
  completed := by simp [initial]
  unit _ _ h := by cases h
  own_unit _ _ _ h := by cases h
  finished h := by simp [initial, Point.isPending] at h
  awaited _ _ h := by cases h
  parked _ _ h := by cases h
  returned _ _ h := by cases h
  alive h := absurd h (lt_irrefl 0)

variable {s s' : State} {i : ℕ} {p : Point}

theorem update_eq_or (s : State) (i j : ℕ) (p : Point) :
    (j = i ∧ Function.update s.thread i p j = p) ∨
      (j ≠ i ∧ Function.update s.thread i p j = s.thread j) := by
  rcases eq_or_ne j i with rfl | h
  · exact .inl ⟨rfl, Function.update_self j p s.thread⟩
  · exact .inr ⟨h, Function.update_of_ne h p s.thread⟩

variable {u : ℕ}

/-- All units are completed where the counter is zero. -/
theorem Inv.mem_completed (hs : Inv s) (h : s.Finished) (hu : u < s.added) : u ∈ s.completed := by
  have hsub : s.completed ⊆ Finset.range s.added := hs.completed.trans hs.taken
  have heq : s.completed = Finset.range s.added :=
    Finset.eq_of_subset_of_card_le hsub (by rw [Finset.card_range]; exact h.ge)
  rw [heq]
  exact Finset.mem_range.mpr hu

theorem Inv.finished_iff (hs : Inv s) : s.Finished ↔ s.count = 0 := by
  have := hs.count
  rw [State.Finished]
  omega

theorem Inv.count_nonneg (hs : Inv s) : 0 ≤ s.count := by
  have hcard : s.completed.card ≤ s.added := by
    have h := Finset.card_le_card (hs.completed.trans hs.taken)
    rwa [Finset.card_range] at h
  have := hs.count
  omega

theorem Point.not_pending_of_free (h : p.isFree = true) : ¬ p.isPending = true := by
  cases p <;> simp_all [Point.isFree, Point.isPending]

/-- What a thread may claim at the point it moves to. -/
structure Keeps (s : State) (i : ℕ) (p : Point) : Prop where
  seen : ∀ c, p.seen = some c → c = s.count
  unit : ∀ u, p.unit = some u →
    (u ∈ s.taken ∧ u ∉ s.completed) ∧ ∀ j, (s.thread j).unit = some u → j = i
  pending : p.isPending = true → s.count = 0
  alive : (s.thread i).isPending = true → s.closed = true ∨ p.isPending = true
  awaited : ∀ k, p.awaited = some k → k ≤ s.added
  parked : ∀ k, p = .parked k → 0 < s.added
  returned : ∀ k, p = .returned k → ∀ u < k, u ∈ s.completed

/-- A thread that moves on without touching the counter or a channel other than `lock_ch`. -/
theorem Inv.move (hs : Inv s) (hk : Keeps s i p) {m : ℕ} (hone : m ≤ 1)
    (htokens : ∀ j, j ≠ i → (s.thread j).inside = true → m = 0)
    (hinside : p.inside = true → m = 0 ∧ ∀ j, j ≠ i → (s.thread j).inside = false) :
    Inv { s.move i p with tokens := m } where
  one := hone
  tokens j hj := by
    obtain ⟨-, h⟩ | ⟨hne, h⟩ := update_eq_or s i j p
    · exact (hinside (h ▸ hj)).1
    · exact htokens j hne (h ▸ hj)
  unique j k hj hi := by
    obtain ⟨hj', h⟩ | ⟨hne, h⟩ := update_eq_or s i j p <;>
      obtain ⟨hk', h'⟩ | ⟨hne', h'⟩ := update_eq_or s i k p
    · rw [hj', hk']
    · exact absurd ((hinside (h ▸ hj)).2 k hne') (by rw [← h']; exact Bool.not_eq_false _ ▸ hi)
    · exact absurd ((hinside (h' ▸ hi)).2 j hne) (by rw [← h]; exact Bool.not_eq_false _ ▸ hj)
    · exact hs.unique j k (h ▸ hj) (h' ▸ hi)
  seen j c hj := by
    obtain ⟨-, h⟩ | ⟨-, h⟩ := update_eq_or s i j p
    · exact hk.seen c (h ▸ hj)
    · exact hs.seen j c (h ▸ hj)
  count := hs.count
  small := hs.small
  net := hs.net
  taken := hs.taken
  completed := hs.completed
  unit j u hj := by
    obtain ⟨-, h⟩ | ⟨-, h⟩ := update_eq_or s i j p
    · exact (hk.unit u (h ▸ hj)).1
    · exact hs.unit j u (h ▸ hj)
  own_unit j k u hj hi := by
    obtain ⟨hj', h⟩ | ⟨-, h⟩ := update_eq_or s i j p <;>
      obtain ⟨hk', h'⟩ | ⟨-, h'⟩ := update_eq_or s i k p
    · rw [hj', hk']
    · exact hj' ▸ ((hk.unit u (h ▸ hj)).2 k (h' ▸ hi)).symm
    · exact hk' ▸ (hk.unit u (h' ▸ hi)).2 j (h ▸ hj)
    · exact hs.own_unit j k u (h ▸ hj) (h' ▸ hi)
  finished hd := by
    obtain hc | ⟨j, hj⟩ := hd
    · exact hs.finished (.inl hc)
    · obtain ⟨-, h⟩ | ⟨-, h⟩ := update_eq_or s i j p
      · exact hs.finished_iff.mpr (hk.pending (h ▸ hj))
      · exact hs.finished (.inr ⟨j, h ▸ hj⟩)
  awaited j k hj := by
    obtain ⟨-, h⟩ | ⟨-, h⟩ := update_eq_or s i j p
    · exact hk.awaited k (h ▸ hj)
    · exact hs.awaited j k (h ▸ hj)
  parked j k hj := by
    obtain ⟨-, h⟩ | ⟨-, h⟩ := update_eq_or s i j p
    · exact hk.parked k (h ▸ hj)
    · exact hs.parked j k (h ▸ hj)
  returned j k hj := by
    obtain ⟨-, h⟩ | ⟨-, h⟩ := update_eq_or s i j p
    · exact hk.returned k (h ▸ hj)
    · exact hs.returned j k (h ▸ hj)
  alive hadded hcount := by
    obtain hc | ⟨j, hj⟩ := hs.alive hadded hcount
    · exact .inl hc
    · obtain ⟨rfl, h⟩ | ⟨-, h⟩ := update_eq_or s i j p
      · exact (hk.alive hj).imp_right fun hp => ⟨j, (congrArg Point.isPending h).trans hp⟩
      · exact .inr ⟨j, (congrArg Point.isPending h).trans hj⟩

/-- A step that leaves `lock_ch` alone. -/
theorem Inv.stay (hs : Inv s) (hk : Keeps s i p)
    (hin : p.inside = true → (s.thread i).inside = true) : Inv (s.move i p) :=
  hs.move hk hs.one (fun j _ hj => hs.tokens j hj) fun hp =>
    ⟨hs.tokens i (hin hp), fun j hne => Bool.eq_false_iff.mpr fun hj =>
      hne (hs.unique j i hj (hin hp))⟩

theorem Inv.lock (hs : Inv s) (hk : Keeps s i p) (h : s.lock i p = some s') : Inv s' := by
  rw [State.lock] at h
  split_ifs at h with hzero
  obtain rfl := Option.some.inj h
  have hnone : ∀ j, (s.thread j).inside = false := fun j =>
    Bool.eq_false_iff.mpr fun hj => hzero (hs.tokens j hj)
  have hlast : s.tokens - 1 = 0 := Nat.sub_eq_zero_of_le hs.one
  exact hs.move hk (hlast ▸ Nat.zero_le 1) (fun _ _ _ => hlast) fun _ => ⟨hlast, fun j _ => hnone j⟩

theorem Inv.unlock (hs : Inv s) (hk : Keeps s i p) (hin : (s.thread i).inside = true)
    (hp : p.inside = false) : Inv (s.unlock i p) :=
  hs.move hk (by rw [hs.tokens i hin]) (fun j hne hj => absurd (hs.unique j i hj hin) hne)
    fun h => absurd h (by rw [hp]; exact Bool.false_ne_true)

variable {c : ℤ}

theorem Point.inside_of_seen (h : p.seen = some c) : p.inside = true := by
  cases p <;> first | rfl | cases h

theorem wrap_eq {z : ℤ} (hl : 0 ≤ z) (hu : z < 2 ^ 63) : wrap z = z := by
  rw [wrap, Int.bmod_def]
  omega

/-- The write of `wg_add`, where nobody has closed `done_ch` or is about to. -/
theorem Inv.addWrite (hs : Inv s) {n : ℤ} (hi : s.thread i = .addWrite n c)
    (hclosed : s.closed = false) (hpending : ∀ j, (s.thread j).isPending = false) (hn : 0 ≤ n)
    (hsmall : s.count + n < 2 ^ 63) :
    Inv { s.move i .addUnlock with
      count := wrap (c + n), added := s.added + n.toNat, net := s.net + n } := by
  have hc : c = s.count := hs.seen i c (by rw [hi]; rfl)
  have hwrap : wrap (c + n) = s.count + n := by
    rw [hc, wrap_eq (Int.add_nonneg hs.count_nonneg hn) hsmall]
  have hkeeps : Keeps s i .addUnlock := by
    refine ⟨?_, ?_, by rintro ⟨⟩, fun h => absurd h (by simp [hi, Point.isPending]), ?_, ?_, ?_⟩
    all_goals rintro _ ⟨⟩
  have hstay := hs.stay hkeeps fun _ => by rw [hi]; rfl
  have hnone : ∀ j, (Function.update s.thread i .addUnlock j).isPending = false := by
    intro j
    obtain ⟨-, h⟩ | ⟨-, h⟩ := update_eq_or s i j .addUnlock
    · rw [h]; rfl
    · rw [h, hpending j]
  have hcount := hs.count
  rw [hwrap]
  exact {
    one := hstay.one
    tokens := hstay.tokens
    unique := hstay.unique
    seen := fun j d hj => by
      obtain ⟨-, h⟩ | ⟨hne, h⟩ := update_eq_or s i j .addUnlock
      · exact absurd (h ▸ hj : Point.addUnlock.seen = some d) (by rintro ⟨⟩)
      · have hseen : (s.thread j).seen = some d := h ▸ hj
        exact absurd (hs.unique j i (Point.inside_of_seen hseen) (by rw [hi]; rfl)) hne
    count := by
      show s.count + n = ((s.added + n.toNat : ℕ) : ℤ) - s.completed.card
      omega
    small := hsmall
    net := by
      show s.net + n = s.count + n
      rw [hs.net]
    taken := hs.taken.trans (Finset.range_mono (Nat.le_add_right _ _))
    completed := hs.completed
    unit := hstay.unit
    own_unit := hstay.own_unit
    finished := fun hd => by
      obtain hc' | ⟨j, hj⟩ := hd
      · exact absurd (hc'.symm.trans hclosed) (by decide)
      · exact absurd (hj.symm.trans (hnone j)) (by decide)
    awaited := fun j k hj => (hstay.awaited j k hj).trans (Nat.le_add_right _ _)
    parked := fun j k hj => Nat.add_pos_left (hstay.parked j k hj) _
    returned := hstay.returned
    alive := fun hadded hzero => by
      have hzero' : s.count + n = 0 := hzero
      have hadded' : 0 < s.added := by
        have : 0 < s.added + n.toNat := hadded
        have := hs.count_nonneg
        omega
      obtain hc' | ⟨j, hj⟩ := hs.alive hadded' (by have := hs.count_nonneg; omega)
      · exact .inl hc'
      · exact absurd (hj.symm.trans (hpending j)) (by decide) }

/-- A unit that is not completed keeps `done_ch` open. -/
theorem Inv.not_finished (hs : Inv s) (hu : (s.thread i).unit = some u) : ¬ s.Finished := by
  intro h
  obtain ⟨htaken, hnot⟩ := hs.unit i u hu
  exact hnot (hs.mem_completed h (Finset.mem_range.mp (hs.taken htaken)))

/-- The write of `wg_done`. -/
theorem Inv.doneWrite (hs : Inv s) (hi : s.thread i = .doneWrite u c) :
    Inv { s.move i (.doneUnlock (wrap (c - 1))) with
      count := wrap (c - 1), completed := insert u s.completed, net := s.net - 1 } := by
  have hc : c = s.count := hs.seen i c (by rw [hi]; rfl)
  have hunit : (s.thread i).unit = some u := by rw [hi]; rfl
  obtain ⟨htaken, hnot⟩ := hs.unit i u hunit
  have hopen : ¬ s.Finished := hs.not_finished hunit
  have hpos : s.count ≠ 0 := fun h => hopen (hs.finished_iff.mpr h)
  have hnonneg := hs.count_nonneg
  have hcount := hs.count
  have hwrap : wrap (c - 1) = s.count - 1 := by
    rw [hc, wrap_eq (by omega) (by have := hs.small; omega)]
  have hcard : (insert u s.completed).card = s.completed.card + 1 := Finset.card_insert_of_notMem hnot
  rw [hwrap]
  have hup := fun j => update_eq_or s i j (.doneUnlock (s.count - 1))
  exact {
    one := hs.one
    tokens := fun j hj => by
      obtain ⟨-, h⟩ | ⟨-, h⟩ := hup j
      · exact hs.tokens i (by rw [hi]; rfl)
      · exact hs.tokens j (h ▸ hj)
    unique := fun j k hj hk => by
      have hin : (s.thread i).inside = true := by rw [hi]; rfl
      obtain ⟨hj', h⟩ | ⟨-, h⟩ := hup j <;> obtain ⟨hk', h'⟩ | ⟨-, h'⟩ := hup k
      · rw [hj', hk']
      · exact hj' ▸ hs.unique i k hin (h' ▸ hk)
      · exact hk' ▸ hs.unique j i (h ▸ hj) hin
      · exact hs.unique j k (h ▸ hj) (h' ▸ hk)
    seen := fun j d hj => by
      obtain ⟨-, h⟩ | ⟨hne, h⟩ := hup j
      · exact (Option.some.inj (h ▸ hj : (Point.doneUnlock (s.count - 1)).seen = some d)).symm
      · have hseen : (s.thread j).seen = some d := h ▸ hj
        exact absurd (hs.unique j i (Point.inside_of_seen hseen) (by rw [hi]; rfl)) hne
    count := by
      show s.count - 1 = (s.added : ℤ) - ((insert u s.completed).card : ℕ)
      omega
    small := by
      show s.count - 1 < 2 ^ 63
      have := hs.small
      omega
    net := by
      show s.net - 1 = s.count - 1
      rw [hs.net]
    taken := hs.taken
    completed := Finset.insert_subset htaken hs.completed
    unit := fun j v hj => by
      obtain ⟨-, h⟩ | ⟨hne, h⟩ := hup j
      · exact absurd (h ▸ hj : (Point.doneUnlock (s.count - 1)).unit = some v) nofun
      · have hj' : (s.thread j).unit = some v := h ▸ hj
        refine ⟨(hs.unit j v hj').1, fun hv => ?_⟩
        obtain rfl | hv := Finset.mem_insert.mp hv
        · exact hne (hs.own_unit j i v hj' hunit)
        · exact (hs.unit j v hj').2 hv
    own_unit := fun j k v hj hk => by
      obtain ⟨-, h⟩ | ⟨-, h⟩ := hup j
      · exact absurd (h ▸ hj : (Point.doneUnlock (s.count - 1)).unit = some v) nofun
      · obtain ⟨-, h'⟩ | ⟨-, h'⟩ := hup k
        · exact absurd (h' ▸ hk : (Point.doneUnlock (s.count - 1)).unit = some v) nofun
        · exact hs.own_unit j k v (h ▸ hj) (h' ▸ hk)
    finished := fun hd => by
      show (insert u s.completed).card = s.added
      obtain hc' | ⟨j, hj⟩ := hd
      · exact absurd (hs.finished (.inl hc')) hopen
      · obtain ⟨-, h⟩ | ⟨-, h⟩ := hup j
        · have hj' : (Point.doneUnlock (s.count - 1)).isPending = true := h ▸ hj
          have hzero : s.count - 1 = 0 := of_decide_eq_true hj'
          omega
        · exact absurd (hs.finished (.inr ⟨j, h ▸ hj⟩)) hopen
    awaited := fun j k hj => by
      obtain ⟨-, h⟩ | ⟨-, h⟩ := hup j
      · exact absurd (h ▸ hj : (Point.doneUnlock (s.count - 1)).awaited = some k) nofun
      · exact hs.awaited j k (h ▸ hj)
    parked := fun j k hj => by
      obtain ⟨-, h⟩ | ⟨-, h⟩ := hup j
      · exact absurd (h ▸ hj : Point.doneUnlock (s.count - 1) = .parked k) nofun
      · exact hs.parked j k (h ▸ hj)
    returned := fun j k hj v hv => by
      obtain ⟨-, h⟩ | ⟨-, h⟩ := hup j
      · exact absurd (h ▸ hj : Point.doneUnlock (s.count - 1) = .returned k) nofun
      · exact Finset.mem_insert_of_mem (hs.returned j k (h ▸ hj) v hv)
    alive := fun _ hzero => by
      refine .inr ⟨i, ?_⟩
      show (Function.update s.thread i (.doneUnlock (s.count - 1)) i).isPending = true
      rw [Function.update_self]
      exact decide_eq_true hzero }

theorem Inv.close (hs : Inv s) (h : s.Finished) : Inv { s with closed := true } :=
  { hs with
    finished := fun _ => h
    alive := fun _ _ => .inl rfl }

/-- Closing `done_ch`. -/
theorem Inv.closing (hs : Inv s) (hi : s.thread i = .closing) :
    Inv { s.move i .idle with closed := true } :=
  (hs.close (hs.finished (.inr ⟨i, by rw [hi]; rfl⟩))).stay (i := i) (p := .idle)
    ⟨nofun, nofun, nofun, fun _ => .inl rfl, nofun, nofun, nofun⟩ nofun

/-- A call of `wg_done`. -/
theorem Inv.take (hs : Inv s) (hfree : (s.thread i).isFree = true) (hu : u < s.added)
    (hnew : u ∉ s.taken) : Inv { s.move i (.doneLock u) with taken := insert u s.taken } := by
  have htaken : Inv { s with taken := insert u s.taken } :=
    { hs with
      taken := Finset.insert_subset (Finset.mem_range.mpr hu) hs.taken
      completed := hs.completed.trans (Finset.subset_insert u s.taken)
      unit := fun j v hj => ⟨Finset.mem_insert_of_mem (hs.unit j v hj).1, (hs.unit j v hj).2⟩ }
  refine htaken.stay (i := i) (p := .doneLock u) ⟨nofun, ?_, nofun, ?_, nofun, nofun, nofun⟩ nofun
  · intro v hv
    obtain rfl : u = v := Option.some.inj hv
    exact ⟨⟨Finset.mem_insert_self u s.taken, fun h => hnew (hs.completed h)⟩,
      fun j hj => absurd (hs.unit j u hj).1 hnew⟩
  · exact fun h => absurd h (Point.not_pending_of_free hfree)

/-! ## Every step, every run -/

theorem Inv.doneUnlock (hs : Inv s) (hi : s.thread i = .doneUnlock c) :
    Inv (s.unlock i (afterDone c)) := by
  have hc : c = s.count := hs.seen i c (by rw [hi]; rfl)
  have hnonneg := hs.count_nonneg
  have hin : (s.thread i).inside = true := by rw [hi]; rfl
  rw [afterDone, if_neg (by omega)]
  split_ifs with hzero
  · exact hs.unlock ⟨nofun, nofun, fun _ => hc ▸ hzero, fun _ => .inr rfl, nofun, nofun, nofun⟩ hin
      rfl
  · refine hs.unlock ⟨nofun, nofun, nofun, fun h => ?_, nofun, nofun, nofun⟩ hin rfl
    rw [hi] at h
    exact absurd (of_decide_eq_true h) hzero

theorem Inv.waitUnlock (hs : Inv s) {k : ℕ} (hi : s.thread i = .waitUnlock k c) :
    Inv (s.unlock i (afterRead k c)) := by
  have hc : c = s.count := hs.seen i c (by rw [hi]; rfl)
  have hk := hs.awaited i k (by rw [hi]; rfl)
  have hin : (s.thread i).inside = true := by rw [hi]; rfl
  have hnonneg := hs.count_nonneg
  have hcount := hs.count
  rw [afterRead]
  split_ifs with hle
  · have hfinished : s.Finished := hs.finished_iff.mpr (by omega)
    refine hs.unlock ⟨nofun, nofun, nofun, fun h => ?_, fun j hj => Option.some.inj hj ▸ hk, nofun,
      ?_⟩ hin rfl
    · exact absurd h (by rw [hi]; nofun)
    · rintro j hj u hu
      obtain rfl : k = j := Point.returned.inj hj
      exact hs.mem_completed hfinished (hu.trans_le hk)
  · refine hs.unlock ⟨nofun, nofun, nofun, fun h => ?_, fun j hj => Option.some.inj hj ▸ hk,
      fun _ _ => by omega, nofun⟩ hin rfl
    exact absurd h (by rw [hi]; nofun)

/-- A unit that the thread keeps. -/
theorem Inv.keeps_unit (hs : Inv s) (hi : (s.thread i).unit = some u) (hp : p.unit = some u) (v : ℕ)
    (hv : p.unit = some v) :
    (v ∈ s.taken ∧ v ∉ s.completed) ∧ ∀ j, (s.thread j).unit = some v → j = i := by
  obtain rfl : u = v := Option.some.inj (hp.symm.trans hv)
  exact ⟨hs.unit i u hi, fun j hj => hs.own_unit j i u hj hi⟩

/-- **One step of a call preserves the invariant.** -/
theorem Inv.next (hs : Inv s) (hok : OneRound s (.run i)) (h : s.next i = some s') : Inv s' := by
  rw [State.next] at h
  split at h
  next => cases h
  next => cases h
  next => cases h
  next n hi =>
    refine hs.lock (p := .addRead n) ⟨nofun, nofun, nofun, ?_, nofun, nofun, nofun⟩ h
    exact fun h => absurd h (by rw [hi]; nofun)
  next n hi =>
    obtain rfl := Option.some.inj h
    refine hs.stay ⟨?_, nofun, nofun, ?_, nofun, nofun, nofun⟩ fun _ => by rw [hi]; rfl
    · exact fun c hc => (Option.some.inj hc).symm
    · exact fun h => absurd h (by rw [hi]; nofun)
  next n c hi =>
    obtain rfl := Option.some.inj h
    obtain ⟨hclosed, hpending, hn, hsmall⟩ := hok n c hi
    exact hs.addWrite hi hclosed hpending hn hsmall
  next hi =>
    obtain rfl := Option.some.inj h
    refine hs.unlock ⟨nofun, nofun, nofun, ?_, nofun, nofun, nofun⟩ (by rw [hi]; rfl) rfl
    exact fun h => absurd h (by rw [hi]; nofun)
  next u hi =>
    have hunit : (s.thread i).unit = some u := by rw [hi]; rfl
    refine hs.lock (p := .doneRead u)
      ⟨nofun, hs.keeps_unit hunit rfl, nofun, ?_, nofun, nofun, nofun⟩ h
    exact fun h => absurd h (by rw [hi]; nofun)
  next u hi =>
    obtain rfl := Option.some.inj h
    have hunit : (s.thread i).unit = some u := by rw [hi]; rfl
    refine hs.stay ⟨?_, hs.keeps_unit hunit rfl, nofun, ?_, nofun, nofun, nofun⟩
      fun _ => by rw [hi]; rfl
    · exact fun c hc => (Option.some.inj hc).symm
    · exact fun h => absurd h (by rw [hi]; nofun)
  next u c hi =>
    obtain rfl := Option.some.inj h
    exact hs.doneWrite hi
  next c hi =>
    obtain rfl := Option.some.inj h
    exact hs.doneUnlock hi
  next hi =>
    obtain rfl := Option.some.inj h
    exact hs.closing hi
  next k hi =>
    have hk := hs.awaited i k (by rw [hi]; rfl)
    refine hs.lock (p := .waitRead k) ⟨nofun, nofun, nofun, ?_, ?_, nofun, nofun⟩ h
    · exact fun h => absurd h (by rw [hi]; nofun)
    · exact fun j hj => Option.some.inj hj ▸ hk
  next k hi =>
    obtain rfl := Option.some.inj h
    have hk := hs.awaited i k (by rw [hi]; rfl)
    refine hs.stay ⟨?_, nofun, nofun, ?_, ?_, nofun, nofun⟩ fun _ => by rw [hi]; rfl
    · exact fun c hc => (Option.some.inj hc).symm
    · exact fun h => absurd h (by rw [hi]; nofun)
    · exact fun j hj => Option.some.inj hj ▸ hk
  next k c hi =>
    obtain rfl := Option.some.inj h
    exact hs.waitUnlock hi
  next k hi =>
    split_ifs at h with hclosed
    obtain rfl := Option.some.inj h
    have hk := hs.awaited i k (by rw [hi]; rfl)
    refine hs.stay ⟨nofun, nofun, nofun, fun _ => .inl hclosed, ?_, nofun, ?_⟩ nofun
    · exact fun j hj => Option.some.inj hj ▸ hk
    · rintro j hj u hu
      obtain rfl : k = j := Point.returned.inj hj
      exact hs.mem_completed (hs.finished (.inl hclosed)) (hu.trans_le hk)

theorem Inv.step {a : Action} (hs : Inv s) (hok : OneRound s a) (h : step s a = some s') :
    Inv s' := by
  cases a with
  | wgAdd i n =>
    simp only [WaitGroup.step] at h
    split_ifs at h with hfree
    obtain rfl := Option.some.inj h
    exact hs.stay ⟨nofun, nofun, nofun, fun h => absurd h (Point.not_pending_of_free hfree), nofun,
      nofun, nofun⟩ nofun
  | wgDone i u =>
    simp only [WaitGroup.step] at h
    split_ifs at h with hcall
    obtain rfl := Option.some.inj h
    exact hs.take hcall.1 hcall.2.1 hcall.2.2
  | wgWait i =>
    simp only [WaitGroup.step] at h
    split_ifs at h with hfree
    obtain rfl := Option.some.inj h
    exact hs.stay ⟨nofun, nofun, nofun, fun h => absurd h (Point.not_pending_of_free hfree),
      fun k hk => (Option.some.inj hk).ge, nofun, nofun⟩ nofun
  | run i => exact hs.next hok h

theorem Inv.waits (hs : Inv s) : Waits s where
  returned := hs.returned
  no_lost_update := by rw [hs.net, wrap_eq hs.count_nonneg hs.small]
  not_stranded := by
    rintro ⟨hcount, ⟨i, k, hi⟩, hclosed, hnone⟩
    obtain hc | ⟨j, hj⟩ := hs.alive (hs.parked i k hi) hcount
    · exact absurd (hc.symm.trans hclosed) (by decide)
    · exact absurd (hj.symm.trans (hnone j)) (by decide)

/-- **The wait group in one round.** In every state of every run that adds no unit after a `wg_done`
has brought the counter to zero, the group keeps its promises. -/
theorem waits_for_all_work (h : group.ReachableWhen OneRound s) : Waits s := by
  have hs : Inv s :=
    h.invariant (fun _ h₀ => h₀ ▸ inv_initial) fun _ _ _ hs hok hst => hs.step hok hst
  exact hs.waits

/-- Thread 0 adds one unit and thread 1 completes it; thread 2 waits before and thread 0 after. -/
def oneRound : List Action :=
  [.wgAdd 0 1, .run 0, .run 0, .run 0, .run 0, .wgWait 2, .run 2, .run 2, .run 2, .wgDone 1 0,
    .run 1, .run 1, .run 1, .run 1, .run 1, .run 2, .wgWait 0, .run 0, .run 0, .run 0]

theorem waits_for_all_work_once : ∃ s, group.schedule initial oneRound = some s ∧
    s.thread 0 = .returned 1 ∧ s.thread 2 = .returned 1 ∧ Waits s := by
  have h : group.schedule initial oneRound = some _ := rfl
  have hok : group.Admits OneRound initial oneRound := by
    refine ⟨trivial, nofun, nofun, ?_, nofun, trivial, nofun, nofun, nofun, trivial, nofun, nofun,
      nofun, nofun, nofun, nofun, trivial, nofun, nofun, nofun, trivial⟩
    rintro n c hn
    obtain ⟨rfl, rfl⟩ := Point.addWrite.inj hn
    refine ⟨rfl, ?_, by decide, by decide⟩
    rintro (_ | j) <;> rfl
  exact ⟨_, h, rfl, rfl, waits_for_all_work (Protocol.reachableWhen_of_schedule rfl h hok)⟩

/-- A second unit is added after the first is completed, and thread 2 waits for it. -/
def twoRounds : List Action :=
  [.wgAdd 0 1, .run 0, .run 0, .run 0, .run 0, .wgDone 1 0, .run 1, .run 1, .run 1, .run 1, .run 1,
    .wgAdd 0 1, .run 0, .run 0, .run 0, .run 0, .wgWait 2, .run 2, .run 2, .run 2, .run 2]

/-- **A group used again.** The second `wg_wait` returns at once: `done_ch` is closed, and the unit
it should wait for is not completed. -/
theorem reused_group_returns_early : ∃ s, group.Reachable s ∧ ¬ Waits s := by
  have h : group.schedule initial twoRounds = some _ := rfl
  refine ⟨_, Protocol.reachable_of_schedule rfl h, fun hw => ?_⟩
  exact absurd (hw.returned 2 2 rfl 1 (by decide)) (by decide)

end Kryos.Stdlib.WaitGroup
