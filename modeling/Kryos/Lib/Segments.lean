import Mathlib.Algebra.Order.Group.Nat
import Mathlib.Data.List.Basic

/-!
# Segments of a list

Positions `a ≤ b` of a list enclose a segment. Segments one after another leave gaps: what is before
the first, between two, and after the last. The gaps interleaved with the segments are the list, and
interleaved with anything else they are the list with each segment replaced.

## Main results

* `Segments.length_gaps` — one more gap than segments
* `Segments.interleave_gaps` — gaps and segments make up the list
-/

namespace Segments

variable {α : Type*}

/-- The elements from position `a` on and before position `b`. -/
def slice (xs : List α) (a b : ℕ) : List α := (xs.take b).drop a

/-- The segments come one after another, between `lo` and `n`. -/
def Ordered (n : ℕ) : ℕ → List (ℕ × ℕ) → Prop
  | lo, [] => lo ≤ n
  | lo, (a, b) :: segs => lo ≤ a ∧ a ≤ b ∧ Ordered n b segs

/-- What the segments leave of the list, from position `lo` on. -/
def gaps (xs : List α) : ℕ → List (ℕ × ℕ) → List (List α)
  | lo, [] => [slice xs lo xs.length]
  | lo, (a, b) :: segs => slice xs lo a :: gaps xs b segs

/-- A gap, a filling, a gap and so on. -/
def interleave : List (List α) → List (List α) → List α
  | [], fillings => fillings.flatten
  | gap :: gaps, [] => gap ++ gaps.flatten
  | gap :: gaps, filling :: fillings => gap ++ filling ++ interleave gaps fillings

variable {xs : List α} {n lo a b c : ℕ} {segs : List (ℕ × ℕ)}

theorem slice_self (xs : List α) (a : ℕ) : slice xs a a = [] := by
  rw [slice, List.drop_eq_nil_iff, List.length_take]
  exact Nat.min_le_left a xs.length

theorem slice_length (xs : List α) (a : ℕ) : slice xs a xs.length = xs.drop a := by
  rw [slice, List.take_length]

theorem length_slice (xs : List α) (a b : ℕ) : (slice xs a b).length = min b xs.length - a := by
  rw [slice, List.length_drop, List.length_take]

theorem slice_eq_cons (hab : a < b) (hb : b ≤ xs.length) :
    slice xs a b = xs[a] :: slice xs (a + 1) b := by
  have hlt : a < (xs.take b).length := by
    rw [List.length_take]
    omega
  rw [slice, List.drop_eq_getElem_cons hlt, List.getElem_take, slice]

theorem slice_append_slice (hab : a ≤ b) (hbc : b ≤ c) :
    slice xs a b ++ slice xs b c = slice xs a c := by
  have hlen : c - a = (b - a) + (c - b) := by omega
  have hdrop : xs.drop b = (xs.drop a).drop (b - a) := by
    rw [List.drop_drop, Nat.add_sub_cancel' hab]
  simp only [slice, List.drop_take]
  rw [hlen, List.take_add, hdrop]

theorem slice_append_drop (hab : a ≤ b) (hb : b ≤ xs.length) :
    slice xs a b ++ xs.drop b = xs.drop a := by
  rw [← slice_length xs b, slice_append_slice hab hb, slice_length]

theorem Ordered.le (h : Ordered n lo segs) : lo ≤ n := by
  induction segs generalizing lo with
  | nil => exact h
  | cons seg segs ih => exact (h.1.trans h.2.1).trans (ih h.2.2)

theorem Ordered.mono {lo' : ℕ} (h : Ordered n lo segs) (hle : lo' ≤ lo) : Ordered n lo' segs := by
  cases segs with
  | nil => exact hle.trans h
  | cons seg segs => exact ⟨hle.trans h.1, h.2⟩

theorem length_gaps (xs : List α) (lo : ℕ) (segs : List (ℕ × ℕ)) :
    (gaps xs lo segs).length = segs.length + 1 := by
  induction segs generalizing lo with
  | nil => rfl
  | cons seg segs ih => rw [gaps, List.length_cons, ih, List.length_cons]

/-- The list again, from position `lo` on. -/
theorem interleave_gaps (h : Ordered xs.length lo segs) :
    interleave (gaps xs lo segs) (segs.map fun seg => slice xs seg.1 seg.2) = xs.drop lo := by
  induction segs generalizing lo with
  | nil => simp [gaps, interleave, slice_length]
  | cons seg segs ih =>
    rw [gaps, List.map_cons, interleave, ih h.2.2,
      slice_append_slice h.1 h.2.1, slice_append_drop (h.1.trans h.2.1) h.2.2.le]

/-- A first gap that is longer by `pre`. -/
theorem append_interleave (pre : List α) (gap : List α) (gaps fillings : List (List α)) :
    pre ++ interleave (gap :: gaps) fillings = interleave ((pre ++ gap) :: gaps) fillings := by
  cases fillings with
  | nil => simp [interleave]
  | cons filling fillings => simp [interleave]

/-- The first gap, taken from `lo` to `b` and from there on. -/
theorem interleave_gaps_of_le (fillings : List (List α)) (hlo : lo ≤ b)
    (h : Ordered xs.length b segs) :
    interleave (gaps xs lo segs) fillings =
      slice xs lo b ++ interleave (gaps xs b segs) fillings := by
  cases segs with
  | nil =>
    rw [gaps, gaps, append_interleave, slice_append_slice hlo h]
  | cons seg segs =>
    rw [gaps, gaps, append_interleave, slice_append_slice hlo h.1]

end Segments
