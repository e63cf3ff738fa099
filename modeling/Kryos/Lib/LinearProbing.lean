import Mathlib.Algebra.BigOperators.Group.Finset.Piecewise
import Mathlib.Algebra.BigOperators.Ring.Finset
import Mathlib.Data.Finset.Card
import Mathlib.Data.Finset.Range
import Mathlib.Data.Nat.Find
import Mathlib.Logic.Function.Basic
import Mathlib.Tactic.SplitIfs

/-!
# Linear probing without tombstones

An open-addressing table is a ring of `n` slots. A key has a home slot, and it is stored at the
first free slot found by walking on from its home; so it is found again by walking from its home to
the first free slot, as long as no slot in between becomes free. Deleting a key therefore moves
later entries back into the gap it leaves.

Positions on the ring are compared through two operations: `fwd n i m` is the slot `m` places after
`i`, and `gap n a b` is how many places `b` lies after `a`. Both are written without remainders, so
that linear arithmetic decides their equations.

## Main results

* `probe_spec` — the walk ends at the first slot where it may stop
* `WellPlaced.probe_of_mem`, `WellPlaced.probe_of_notMem` — it finds a key that is there, and a
  free slot for a key that is not
* `WellPlaced.insert`, `WellPlaced.replace` — filling that slot keeps the table well placed
* `Hole.skip`, `Hole.move`, `Hole.close` — the steps of a deletion, from a gap anywhere in a run of
  entries to a well-placed table
-/

namespace LinearProbing

/-! ## The ring -/

/-- The slot `m` places after `i`, for `m ≤ n`. -/
def fwd (n i m : ℕ) : ℕ :=
  if i + m < n then i + m else i + m - n

/-- How many places `b` lies after `a`. -/
def gap (n a b : ℕ) : ℕ :=
  if a ≤ b then b - a else b + n - a

variable {n i j a b m : ℕ}

theorem fwd_lt (hi : i < n) (hm : m ≤ n) : fwd n i m < n := by
  unfold fwd
  split_ifs <;> omega

theorem gap_lt (ha : a < n) (hb : b < n) : gap n a b < n := by
  unfold gap
  split_ifs <;> omega

theorem fwd_gap (ha : a < n) (hb : b < n) : fwd n a (gap n a b) = b := by
  unfold fwd gap
  split_ifs <;> omega

theorem gap_fwd (ha : a < n) (hm : m < n) : gap n a (fwd n a m) = m := by
  unfold fwd gap
  split_ifs <;> omega

theorem fwd_zero (hi : i < n) : fwd n i 0 = i := by
  unfold fwd
  split_ifs <;> omega

theorem fwd_one_fwd (hi : i < n) (hm : m < n) : fwd n (fwd n i m) 1 = fwd n i (m + 1) := by
  unfold fwd
  split_ifs <;> omega

theorem fwd_fwd_one (hi : i < n) (hm : m < n) : fwd n (fwd n i 1) m = fwd n i (m + 1) := by
  unfold fwd
  split_ifs <;> omega

/-! ## The walk -/

variable {K V : Type*}

/-- The slots: what each one stores, if it is occupied. -/
abbrev Slots (K V : Type*) := ℕ → Option (K × V)

/-- The walk stops at a free slot, and at a key of its choice. -/
def Stops (stop : K → Bool) (e : Slots K V) (p : ℕ) : Prop :=
  ∀ kv, e p = some kv → stop kv.1 = true

/-- Walk on from a slot, at most `fuel` slots, to the first one where the walk stops. -/
def probe (next : ℕ → ℕ) (stop : K → Bool) (e : Slots K V) : ℕ → ℕ → Option ℕ
  | 0, _ => none
  | fuel + 1, p =>
    match e p with
    | none => some p
    | some kv => if stop kv.1 then some p else probe next stop e fuel (next p)

/-- The walk ends at the first slot where it stops, if there is one within reach. -/
theorem probe_spec {next : ℕ → ℕ} (hnext : ∀ p < n, next p = fwd n p 1) {stop : K → Bool}
    {e : Slots K V} (d : ℕ) : ∀ {fuel p : ℕ}, p < n → d < fuel → d < n →
    (∀ m < d, ¬ Stops stop e (fwd n p m)) → Stops stop e (fwd n p d) →
    probe next stop e fuel p = some (fwd n p d) := by
  induction d with
  | zero =>
    intro fuel p hp hfuel _ _ hstop
    obtain ⟨fuel, rfl⟩ := Nat.exists_eq_add_one_of_ne_zero (by omega : fuel ≠ 0)
    rw [fwd_zero hp] at hstop ⊢
    rcases hep : e p with _ | kv
    · simp [probe, hep]
    · simp [probe, hep, hstop kv hep]
  | succ d ih =>
    intro fuel p hp hfuel hn hbefore hstop
    obtain ⟨fuel, rfl⟩ := Nat.exists_eq_add_one_of_ne_zero (by omega : fuel ≠ 0)
    have hshift : ∀ m, m < n → fwd n (next p) m = fwd n p (m + 1) := by
      intro m hm
      rw [hnext p hp, fwd_fwd_one hp hm]
    have hgo : ¬ Stops stop e p := by
      have := hbefore 0 (by omega)
      rwa [fwd_zero hp] at this
    have hrest : probe next stop e fuel (next p) = some (fwd n p (d + 1)) := by
      rw [← hshift d (by omega)]
      refine ih (by rw [hnext p hp]; exact fwd_lt hp (by omega)) (by omega) (by omega) ?_ ?_
      · intro m hm
        rw [hshift m (by omega)]
        exact hbefore (m + 1) (by omega)
      · rwa [hshift d (by omega)]
    rcases hep : e p with _ | kv
    · exact absurd (fun kv h => by simp [hep] at h) hgo
    · have hk : stop kv.1 = false := by
        by_contra hk
        refine hgo fun kv' h => ?_
        obtain rfl : kv = kv' := by simpa [hep] using h
        simpa using hk
      simp [probe, hep, hk, hrest]

/-! ## Well-placed tables -/

variable {home : K → ℕ} {e : Slots K V} {p q : ℕ} {k : K} {v w : V}

/-- The key is stored with this value. -/
def Stored (n : ℕ) (e : Slots K V) (k : K) (v : V) : Prop :=
  ∃ p < n, e p = some (k, v)

/-- Every entry is reached from its home without crossing a free slot, and no key is stored
twice. -/
structure WellPlaced (home : K → ℕ) (n : ℕ) (e : Slots K V) : Prop where
  linked : ∀ p < n, ∀ k v, e p = some (k, v) →
    ∀ m < gap n (home k) p, (e (fwd n (home k) m)).isSome
  unique : ∀ p < n, ∀ q < n, ∀ k v w, e p = some (k, v) → e q = some (k, w) → p = q

theorem WellPlaced.empty (home : K → ℕ) (n : ℕ) : WellPlaced home n (fun _ => none : Slots K V) where
  linked _ _ _ _ h := by simp at h
  unique _ _ _ _ _ _ _ h := by simp at h

section Lookup

variable {next : ℕ → ℕ} (hnext : ∀ p < n, next p = fwd n p 1) (hhome : home k < n)
include hnext hhome

/-- A stored key is found where it is stored. -/
theorem WellPlaced.probe_of_mem [DecidableEq K] (he : WellPlaced home n e) (hp : p < n) (hk : e p = some (k, v)) :
    probe next (· = k) e n (home k) = some p := by
  have hgap := gap_lt hhome hp
  have hpath := fwd_gap hhome hp
  conv_rhs => rw [← hpath]
  refine probe_spec hnext _ hhome hgap hgap (fun m hm hstop => ?_) ?_
  · -- before its slot the walk meets occupied slots, and none of them has the key
    obtain ⟨⟨k', v'⟩, hm'⟩ := Option.isSome_iff_exists.mp (he.linked p hp k v hk m hm)
    have hkk : k' = k := by simpa using hstop _ hm'
    rw [hkk] at hm'
    have hq := he.unique _ (fwd_lt hhome (by omega)) p hp k v' v hm' hk
    have := gap_fwd hhome (m := m) (by omega)
    rw [hq] at this
    omega
  · rw [hpath]
    intro kv h
    obtain rfl : (k, v) = kv := by simpa [hk] using h
    simp

/-- For a key that is not stored the walk ends at a free slot, reached over occupied slots. -/
theorem probe_of_free {stop : K → Bool} (hfree : ∃ q < n, e q = none)
    (hstop : ∀ p < n, ∀ kv, e p = some kv → stop kv.1 = false) :
    ∃ q < n, probe next stop e n (home k) = some q ∧ e q = none ∧
      ∀ m < gap n (home k) q, (e (fwd n (home k) m)).isSome := by
  have hex : ∃ d, d < n ∧ e (fwd n (home k) d) = none := by
    obtain ⟨q, hq, heq⟩ := hfree
    exact ⟨gap n (home k) q, gap_lt hhome hq, by rwa [fwd_gap hhome hq]⟩
  classical
  -- the first free slot on the way
  obtain ⟨hd, hfirst⟩ := Nat.find_spec hex
  have hbefore : ∀ m < Nat.find hex, (e (fwd n (home k) m)).isSome := by
    intro m hm
    rw [Option.isSome_iff_ne_none]
    exact fun hnone => Nat.find_min hex hm ⟨by omega, hnone⟩
  refine ⟨fwd n (home k) (Nat.find hex), fwd_lt hhome (by omega), ?_, hfirst, ?_⟩
  · refine probe_spec hnext _ hhome hd hd (fun m hm hs => ?_) (fun kv h => by simp [hfirst] at h)
    obtain ⟨kv, hkv⟩ := Option.isSome_iff_exists.mp (hbefore m hm)
    have := hstop _ (fwd_lt hhome (by omega)) kv hkv
    simp [hs kv hkv] at this
  · rwa [gap_fwd hhome hd]

end Lookup

/-! ## Filling a slot -/

/-- A new key goes to the free slot its walk has found. -/
theorem WellPlaced.insert (he : WellPlaced home n e) (hq : q < n) (hfree : e q = none)
    (hpath : ∀ m < gap n (home k) q, (e (fwd n (home k) m)).isSome)
    (hnew : ∀ w, ¬ Stored n e k w) : WellPlaced home n (Function.update e q (some (k, v))) := by
  have hgrow : ∀ p, (e p).isSome → (Function.update e q (some (k, v)) p).isSome := by
    intro p hp
    rcases eq_or_ne p q with rfl | hne
    · simp
    · rwa [Function.update_of_ne hne]
  constructor
  · intro p hp k' v' hk' m hm
    rcases eq_or_ne p q with rfl | hne
    · obtain ⟨rfl, -⟩ : k = k' ∧ v = v' := by simpa using hk'
      exact hgrow _ (hpath m hm)
    · rw [Function.update_of_ne hne] at hk'
      exact hgrow _ (he.linked p hp k' v' hk' m hm)
  · intro p hp r hr k' v' w' hp' hr'
    rcases eq_or_ne p q with rfl | hpq <;> rcases eq_or_ne r p with rfl | hrp
    · rfl
    · rw [Function.update_of_ne hrp] at hr'
      obtain ⟨rfl, -⟩ : k = k' ∧ v = v' := by simpa using hp'
      exact absurd ⟨r, hr, hr'⟩ (hnew w')
    · rfl
    · rw [Function.update_of_ne hpq] at hp'
      rcases eq_or_ne r q with rfl | hrq
      · obtain ⟨rfl, -⟩ : k = k' ∧ v = w' := by simpa using hr'
        exact absurd ⟨p, hp, hp'⟩ (hnew v')
      · rw [Function.update_of_ne hrq] at hr'
        exact he.unique p hp r hr k' v' w' hp' hr'

/-- Changing the value of a stored key moves nothing. -/
theorem WellPlaced.replace (he : WellPlaced home n e) (hk : e p = some (k, w)) :
    WellPlaced home n (Function.update e p (some (k, v))) := by
  have hkeys : ∀ r k' v', Function.update e p (some (k, v)) r = some (k', v') →
      ∃ w', e r = some (k', w') := by
    intro r k' v' hr
    rcases eq_or_ne r p with rfl | hne
    · obtain ⟨rfl, -⟩ : k = k' ∧ v = v' := by simpa using hr
      exact ⟨w, hk⟩
    · rw [Function.update_of_ne hne] at hr
      exact ⟨v', hr⟩
  constructor
  · intro r hr k' v' hk' m hm
    obtain ⟨w', hw'⟩ := hkeys r k' v' hk'
    have := he.linked r hr k' w' hw' m hm
    rcases eq_or_ne (fwd n (home k') m) p with h | hne
    · simp [h]
    · rwa [Function.update_of_ne hne]
  · intro r hr r' hr' k' v' w' h h'
    obtain ⟨x, hx⟩ := hkeys r k' v' h
    obtain ⟨y, hy⟩ := hkeys r' k' w' h'
    exact he.unique r hr r' hr' k' x y hx hy

/-! ## Deleting a key -/

/-- A deletion in progress: the slot `hole` is free, the `r - 1` slots after it are occupied and
need not be looked at again, and every entry that is cut off from its home by the hole lies at
least `r` places after it. -/
structure Hole (home : K → ℕ) (n : ℕ) (e : Slots K V) (hole r : ℕ) : Prop where
  hole_lt : hole < n
  empty : e hole = none
  pos : 1 ≤ r
  le : r ≤ n
  run : ∀ m, 0 < m → m < r → (e (fwd n hole m)).isSome
  linked : ∀ p < n, ∀ k v, e p = some (k, v) → ∀ m < gap n (home k) p,
    (e (fwd n (home k) m)).isSome ∨ fwd n (home k) m = hole
  behind : ∀ p < n, ∀ k v, e p = some (k, v) → gap n (home k) hole < gap n (home k) p →
    r ≤ gap n hole p
  unique : ∀ p < n, ∀ q < n, ∀ k v w, e p = some (k, v) → e q = some (k, w) → p = q

variable {hole r : ℕ}

/-- Clearing a slot opens a hole. -/
theorem WellPlaced.openHole (he : WellPlaced home n e) (hp : p < n) :
    Hole home n (Function.update e p none) p 1 := by
  have hother : ∀ q kv, Function.update e p none q = some kv → q ≠ p ∧ e q = some kv := by
    intro q kv h
    rcases eq_or_ne q p with rfl | hne
    · simp at h
    · exact ⟨hne, by rwa [Function.update_of_ne hne] at h⟩
  refine ⟨hp, by simp, le_rfl, by omega, fun m h h' => by omega, ?_, ?_, ?_⟩
  · intro q hq k v hk m hm
    have := he.linked q hq k v (hother q _ hk).2 m hm
    rcases eq_or_ne (fwd n (home k) m) p with h | hne
    · exact .inr h
    · exact .inl (by rwa [Function.update_of_ne hne])
  · intro q hq k v hk _
    have hne := (hother q _ hk).1
    unfold gap
    split_ifs <;> omega
  · intro q hq q' hq' k v w h h'
    exact he.unique q hq q' hq' k v w (hother q _ h).2 (hother q' _ h').2

/-- The entry after the run is not cut off: leave it. -/
theorem Hole.skip (hh : Hole home n e hole r) (hr : r < n) (hk : e (fwd n hole r) = some (k, v))
    (hnot : ¬ gap n (home k) hole < gap n (home k) (fwd n hole r)) :
    Hole home n e hole (r + 1) := by
  refine { hh with pos := by omega, le := by omega, run := ?_, behind := ?_ }
  · intro m hm hlt
    rcases Nat.lt_succ_iff_lt_or_eq.mp hlt with h | rfl
    · exact hh.run m hm h
    · simp [hk]
  · intro p hp k' v' hk' hcut
    have hle := hh.behind p hp k' v' hk' hcut
    rcases Nat.lt_or_eq_of_le hle with h | h
    · exact h
    · have hpr : fwd n hole r = p := by rw [h, fwd_gap hh.hole_lt hp]
      rw [hpr, hk'] at hk
      obtain ⟨rfl, -⟩ : k' = k ∧ v' = v := by simpa using hk
      rw [hpr] at hnot
      exact absurd hcut hnot

/-- The entry after the run is cut off: it goes into the hole, and its slot is the new hole. -/
theorem Hole.move (hh : Hole home n e hole r) (hr : r < n)
    (hk : e (fwd n hole r) = some (k, v))
    (hcut : gap n (home k) hole < gap n (home k) (fwd n hole r)) :
    Hole home n (Function.update (Function.update e (fwd n hole r) none) hole (some (k, v)))
      (fwd n hole r) 1 := by
  have hjn : fwd n hole r < n := fwd_lt hh.hole_lt hr.le
  have hne : fwd n hole r ≠ hole := by
    have := hh.pos
    have := hh.hole_lt
    unfold fwd
    split_ifs <;> omega
  generalize hj : fwd n hole r = j at *
  -- what the new table stores
  have hstored : ∀ q kv, Function.update (Function.update e j none) hole (some (k, v)) q = some kv →
      (q = hole ∧ kv = (k, v)) ∨ (q ≠ hole ∧ q ≠ j ∧ e q = some kv) := by
    intro q kv h
    rcases eq_or_ne q hole with rfl | hqh
    · exact .inl ⟨rfl, by simpa using h.symm⟩
    · rw [Function.update_of_ne hqh] at h
      rcases eq_or_ne q j with rfl | hqj
      · simp at h
      · exact .inr ⟨hqh, hqj, by rwa [Function.update_of_ne hqj] at h⟩
  have hgrow : ∀ q, ((e q).isSome ∨ q = hole) →
      (Function.update (Function.update e j none) hole (some (k, v)) q).isSome ∨ q = j := by
    intro q hq
    rcases eq_or_ne q hole with rfl | hqh
    · simp
    · rcases eq_or_ne q j with rfl | hqj
      · exact .inr rfl
      · refine .inl ?_
        rw [Function.update_of_ne hqh, Function.update_of_ne hqj]
        exact hq.resolve_right hqh
  refine ⟨hjn, by simp [hne], le_rfl, by omega, fun m h h' => by omega, ?_, ?_, ?_⟩
  · intro q hq k' v' hk' m hm
    rcases hstored q _ hk' with ⟨rfl, hkv⟩ | ⟨-, -, hq'⟩
    · obtain ⟨rfl, rfl⟩ : k' = k ∧ v' = v := by simpa using hkv
      -- its way to the hole is the start of its way to its old slot
      exact hgrow _ (hh.linked j hjn k' v' hk m (by omega))
    · exact hgrow _ (hh.linked q hq k' v' hq' m hm)
  · intro q hq k' v' hk' _
    have hqj : q ≠ j := by
      rcases hstored q _ hk' with ⟨rfl, -⟩ | ⟨-, h, -⟩
      · exact hne.symm
      · exact h
    unfold gap
    split_ifs <;> omega
  · intro q hq q' hq' k' v' w' h h'
    rcases hstored q _ h with ⟨rfl, hkv⟩ | ⟨-, hqj, hq1⟩ <;>
      rcases hstored q' _ h' with ⟨rfl, hkv'⟩ | ⟨-, hqj', hq1'⟩
    · rfl
    · obtain ⟨rfl, -⟩ : k' = k ∧ v' = v := by simpa using hkv
      exact absurd (hh.unique j hjn q' hq' k' v w' hk hq1').symm hqj'
    · obtain ⟨rfl, -⟩ : k' = k ∧ w' = v := by simpa using hkv'
      exact absurd (hh.unique q hq j hjn k' v' v hq1 hk) hqj
    · exact hh.unique q hq q' hq' k' v' w' hq1 hq1'

/-- A free slot after the run ends the deletion: nothing is cut off any more. -/
theorem Hole.close (hh : Hole home n e hole r) (hhome : ∀ k, home k < n)
    (hend : r = n ∨ e (fwd n hole r) = none) : WellPlaced home n e := by
  refine ⟨fun p hp k v hk m hm => ?_, hh.unique⟩
  refine (hh.linked p hp k v hk m hm).resolve_right fun hcross => ?_
  have hlt := gap_lt (hhome k) hp
  have hm' : gap n (home k) hole = m := by rw [← hcross, gap_fwd (hhome k) (by omega)]
  have hle := hh.behind p hp k v hk (by omega)
  have hp' := gap_lt hh.hole_lt hp
  rcases hend with rfl | hfree
  · omega
  · -- the way of the entry continues through the hole to the free slot behind the run
    have hne : r ≠ gap n hole p := by
      rintro rfl
      rw [fwd_gap hh.hole_lt hp, hk] at hfree
      simp at hfree
    have hsum : gap n (home k) hole + gap n hole p = gap n (home k) p := by
      have := hhome k
      have := hh.hole_lt
      unfold gap at *
      split_ifs at * <;> omega
    have hfwd : fwd n (home k) (m + r) = fwd n hole r := by
      have := fwd_gap (hhome k) hh.hole_lt
      have := hhome k
      have := hh.hole_lt
      unfold fwd gap at *
      split_ifs at * <;> omega
    rcases hh.linked p hp k v hk (m + r) (by omega) with h | h
    · rw [hfwd, hfree] at h
      simp at h
    · have := hh.pos
      have := hh.hole_lt
      rw [hfwd] at h
      unfold fwd at h
      split_ifs at h <;> omega

/-- The test by index comparison for an entry at `j` that the hole at `i` cuts off from its home
`a`. -/
theorem cut_off_iff (hi : i < n) (hj : j < n) (ha : a < n) :
    ((j > i ∧ (a ≤ i ∨ a > j)) ∨ (j < i ∧ a ≤ i ∧ a > j)) ↔ gap n a i < gap n a j := by
  unfold gap
  split_ifs <;> omega

/-! ## What is stored -/

theorem stored_update_iff (hq : q < n) {kv : Option (K × V)} :
    Stored n (Function.update e q kv) k v ↔
      kv = some (k, v) ∨ ∃ p < n, p ≠ q ∧ e p = some (k, v) := by
  constructor
  · rintro ⟨p, hp, hk⟩
    rcases eq_or_ne p q with rfl | hne
    · exact .inl (by simpa using hk)
    · exact .inr ⟨p, hp, hne, by rwa [Function.update_of_ne hne] at hk⟩
  · rintro (rfl | ⟨p, hp, hne, hk⟩)
    · exact ⟨q, hq, by simp⟩
    · exact ⟨p, hp, by rwa [Function.update_of_ne hne]⟩

/-- Putting a key into the one slot that has it, or into a free slot if none has it. -/
theorem stored_put_iff (hq : q < n) (hone : ∀ p < n, ∀ w, e p = some (k, w) → p = q)
    (hkey : ∀ kv, e q = some kv → kv.1 = k) {k' : K} {v' : V} :
    Stored n (Function.update e q (some (k, v))) k' v' ↔
      (k' = k ∧ v' = v) ∨ (k' ≠ k ∧ Stored n e k' v') := by
  rw [stored_update_iff hq]
  constructor
  · rintro (h | ⟨p, hp, hne, h⟩)
    · obtain ⟨rfl, rfl⟩ : k = k' ∧ v = v' := by simpa using h
      exact .inl ⟨rfl, rfl⟩
    · refine .inr ⟨?_, p, hp, h⟩
      rintro rfl
      exact hne (hone p hp v' h)
  · rintro (⟨rfl, rfl⟩ | ⟨hne, p, hp, h⟩)
    · exact .inl rfl
    · refine .inr ⟨p, hp, ?_, h⟩
      rintro rfl
      exact hne (hkey _ h)

/-- Moving an entry to a free slot stores the same keys and values. -/
theorem stored_move_iff (hp : p < n) (hq : q < n) {k' : K} {v' : V}
    (hfree : e q = none) (hk : e p = some (k', v')) :
    Stored n (Function.update (Function.update e p none) q (some (k', v'))) k v ↔
      Stored n e k v := by
  rw [stored_update_iff hq]
  constructor
  · rintro (h | ⟨r, hr, hrq, h⟩)
    · exact ⟨p, hp, hk.trans h⟩
    · rcases eq_or_ne r p with rfl | hrp
      · simp at h
      · exact ⟨r, hr, by rwa [Function.update_of_ne hrp] at h⟩
  · rintro ⟨r, hr, h⟩
    rcases eq_or_ne r p with rfl | hrp
    · exact .inl (hk.symm.trans h)
    · refine .inr ⟨r, hr, ?_, by rwa [Function.update_of_ne hrp]⟩
      rintro rfl
      simp [hfree] at h

/-! ## Counting -/

/-- The number of occupied slots. -/
def occupied (n : ℕ) (e : Slots K V) : ℕ :=
  ((Finset.range n).filter fun p => (e p).isSome).card

theorem occupied_empty (n : ℕ) : occupied n (fun _ => none : Slots K V) = 0 := by
  simp [occupied]

theorem occupied_update (hq : q < n) (kv : Option (K × V)) :
    occupied n (Function.update e q kv) + (if (e q).isSome then 1 else 0)
      = occupied n e + (if kv.isSome then 1 else 0) := by
  have hmem : q ∈ Finset.range n := Finset.mem_range.mpr hq
  have hsame : ∀ p ∈ (Finset.range n).erase q,
      (if (Function.update e q kv p).isSome then 1 else 0) = if (e p).isSome then 1 else 0 := by
    intro p hp
    rw [Function.update_of_ne (Finset.ne_of_mem_erase hp)]
  unfold occupied
  rw [Finset.card_filter, Finset.card_filter, ← Finset.add_sum_erase _ _ hmem,
    ← Finset.add_sum_erase _ (fun p => if (e p).isSome then 1 else 0) hmem,
    Finset.sum_congr rfl hsame, Function.update_self]
  omega

theorem occupied_succ (n : ℕ) (e : Slots K V) :
    occupied (n + 1) e = occupied n e + if (e n).isSome then 1 else 0 := by
  unfold occupied
  rw [Finset.range_add_one, Finset.filter_insert]
  split_ifs <;> simp

theorem occupied_le (n : ℕ) (e : Slots K V) : occupied n e ≤ n := by
  induction n with
  | zero => simp [occupied]
  | succ n ih =>
    rw [occupied_succ]
    split_ifs <;> omega

theorem stored_succ_iff : Stored (n + 1) e k v ↔ Stored n e k v ∨ e n = some (k, v) := by
  constructor
  · rintro ⟨p, hp, h⟩
    rcases Nat.lt_succ_iff_lt_or_eq.mp hp with hlt | rfl
    · exact .inl ⟨p, hlt, h⟩
    · exact .inr h
  · rintro (⟨p, hp, h⟩ | h)
    · exact ⟨p, by omega, h⟩
    · exact ⟨n, by omega, h⟩

theorem exists_free (h : occupied n e < n) : ∃ q < n, e q = none := by
  by_contra hfull
  push Not at hfull
  have : occupied n e = n := by
    unfold occupied
    rw [Finset.filter_true_of_mem, Finset.card_range]
    intro p hp
    exact Option.isSome_iff_ne_none.mpr (hfull p (Finset.mem_range.mp hp))
  omega

end LinearProbing
