import Kryos.Lib.Segments
import Kryos.Lib.StableMerge
import Mathlib.Order.Defs.Unbundled

/-!
# Sorting in the standard library

`sort`, `sort_by` and `sort_by_key` are one merge sort that goes bottom up: runs of the current
width are merged two by two from `src` into `buf`, which is then copied back, and the width doubles.
The end of a run and the end of the run behind it are clamped to the length of the array.

An access out of range ends the program. The width stays positive, and with it the loops terminate.

## Main results

* `mergeLoop_eq`, `passLoop_eq` — what the loops leave in the buffer
* `sortLoop_spec` — the runs of the current width are sorted for themselves
* `sorts_stably` — the three functions sort, and keep the order of what compares equal
-/

namespace Kryos.Stdlib.Iter

open Segments StableMerge

variable {α κ : Type}

/-- `array index out of bounds` -/
inductive Panic where
  | outOfBounds
  deriving DecidableEq, Repr

def index (xs : List α) (i : ℕ) : Except Panic α :=
  match xs[i]? with
  | some x => .ok x
  | none => .error .outOfBounds

def assign (xs : List α) (i : ℕ) (x : α) : Except Panic (List α) :=
  if i < xs.length then .ok (xs.set i x) else .error .outOfBounds

section MergeSort

variable (le : α → α → Bool)

/-- `a < mid and (b >= hi or src[a] <= src[b])` -/
def takesLeft (src : List α) (mid hi a b : ℕ) : Except Panic Bool :=
  if a < mid then
    if b ≥ hi then .ok true
    else do
      let x ← index src a
      let y ← index src b
      .ok (le x y)
  else .ok false

/-- The loop over `k`. -/
def mergeLoop (src : List α) (mid hi a b k : ℕ) (buf : List α) : Except Panic (List α) :=
  if k < hi then do
    let left ← takesLeft le src mid hi a b
    if left then
      let x ← index src a
      let buf ← assign buf k x
      mergeLoop src mid hi (a + 1) b (k + 1) buf
    else
      let y ← index src b
      let buf ← assign buf k y
      mergeLoop src mid hi a (b + 1) (k + 1) buf
  else .ok buf
  termination_by hi - k

/-- The loop over `lo`. -/
def passLoop (n : ℕ) (src : List α) (width : {w : ℕ // 0 < w}) (lo : ℕ) (buf : List α) :
    Except Panic (List α) :=
  if lo < n then do
    let mid := lo + width
    let mid := if mid > n then n else mid
    let hi := mid + width
    let hi := if hi > n then n else hi
    let buf ← mergeLoop le src mid hi lo mid lo buf
    passLoop n src width (lo + width + width) buf
  else .ok buf
  termination_by n - lo
  decreasing_by
    have := width.2
    omega

/-- `src[i] = buf[i]`, from `i` on. -/
def copyLoop (n i : ℕ) (src buf : List α) : Except Panic (List α) :=
  if i < n then do
    let x ← index buf i
    let src ← assign src i x
    copyLoop n (i + 1) src buf
  else .ok src
  termination_by n - i

/-- The loop over `width`. -/
def sortLoop (n : ℕ) (width : {w : ℕ // 0 < w}) (src buf : List α) : Except Panic (List α) :=
  if width.val < n then do
    let buf ← passLoop le n src width 0 buf
    let src ← copyLoop n 0 src buf
    sortLoop n ⟨width + width, Nat.add_pos_left width.2 _⟩ src buf
  else .ok src
  termination_by n - width.val
  decreasing_by
    have := width.2
    show n - (width.val + width.val) < n - width.val
    omega

/-- `src` and `buf` start as copies of the array. -/
def sortWith (arr : List α) : Except Panic (List α) :=
  let n := arr.length
  let src := arr
  let buf := arr
  if n < 2 then .ok src else sortLoop le n ⟨1, Nat.one_pos⟩ src buf

end MergeSort

def sort [LE α] [DecidableLE α] (arr : List α) : Except Panic (List α) :=
  sortWith (fun x y => x ≤ y) arr

def sortBy (arr : List α) (cmp : α → α → ℤ) : Except Panic (List α) :=
  sortWith (fun x y => cmp x y ≤ 0) arr

def sortByKey [LT κ] [DecidableLT κ] (arr : List α) (keyFn : α → κ) : Except Panic (List α) :=
  sortBy arr fun a b =>
    let ka := keyFn a
    let kb := keyFn b
    if ka < kb then -1 else if kb < ka then 1 else 0

/-! ## What the loops leave -/

variable {le : α → α → Bool} {src buf xs : List α} {mid hi a b k n lo i : ℕ} {x : α}

theorem index_eq (h : i < xs.length) : index xs i = .ok xs[i] := by
  rw [index, List.getElem?_eq_getElem h]

theorem assign_eq (h : i < xs.length) (x : α) : assign xs i x = .ok (xs.set i x) := if_pos h

/-- One more element in place, in front of what is still to come. -/
theorem take_set_append (h : k < buf.length) (x : α) (rest : List α) :
    (buf.set k x).take (k + 1) ++ rest = buf.take k ++ x :: rest := by
  have hlt : k < (buf.set k x).length := by rwa [List.length_set]
  rw [List.take_succ_eq_append_getElem hlt, List.take_set_of_le le_rfl, List.getElem_set_self,
    List.append_assoc, List.singleton_append]

/-- Both runs have an element left. -/
theorem takesLeft_eq (hamid : a < mid) (hbhi : b < hi) (ha : a < src.length) (hb : b < src.length) :
    takesLeft le src mid hi a b = .ok (le src[a] src[b]) := by
  rw [takesLeft, if_pos hamid, if_neg (Nat.not_le_of_lt hbhi), index_eq ha, index_eq hb]
  rfl

theorem mergeLoop_eq (hlen : buf.length = src.length) (ha : a ≤ mid) (hmid : mid ≤ b) (hb : b ≤ hi)
    (hhi : hi ≤ src.length) (hk : k + mid = a + b) : mergeLoop le src mid hi a b k buf =
      .ok (buf.take k ++ (slice src a mid).merge (slice src b hi) le ++ buf.drop hi) := by
  have hset (x : α) : (buf.set k x).length = src.length := by rw [List.length_set, hlen]
  induction hd : hi - k generalizing a b k buf with
  | zero =>
    obtain ⟨rfl, rfl⟩ : a = mid ∧ b = hi := by omega
    have hkh : k = b := by omega
    rw [mergeLoop, if_neg (by omega), slice_self, slice_self, List.merge_right, List.append_nil, hkh,
      List.take_append_drop]
  | succ d ih =>
    have hlt : k < buf.length := by omega
    -- the element is written, and the rest of the buffer is left to the next round
    have hwrite (x : α) (rest : List α) : (buf.set k x).take (k + 1) ++ rest ++
        (buf.set k x).drop hi = buf.take k ++ x :: rest ++ buf.drop hi := by
      rw [take_set_append hlt, List.drop_set_of_lt (by omega)]
    have hleft (hamid : a < mid) (hmerge : (slice src a mid).merge (slice src b hi) le =
        src[a] :: (slice src (a + 1) mid).merge (slice src b hi) le) :
        (do
          let x ← index src a
          let buf ← assign buf k x
          mergeLoop le src mid hi (a + 1) b (k + 1) buf) =
          .ok (buf.take k ++ (slice src a mid).merge (slice src b hi) le ++ buf.drop hi) := by
      rw [index_eq (by omega)]
      show (assign buf k src[a] >>= _) = _
      rw [assign_eq hlt]
      show mergeLoop le src mid hi (a + 1) b (k + 1) (buf.set k src[a]) = _
      rw [ih (hset _) hamid hmid hb (by omega) (fun x => by rw [List.length_set, hset]) (by omega),
        hwrite, hmerge]
    have hright (hbhi : b < hi) (hmerge : (slice src a mid).merge (slice src b hi) le =
        src[b] :: (slice src a mid).merge (slice src (b + 1) hi) le) :
        (do
          let y ← index src b
          let buf ← assign buf k y
          mergeLoop le src mid hi a (b + 1) (k + 1) buf) =
          .ok (buf.take k ++ (slice src a mid).merge (slice src b hi) le ++ buf.drop hi) := by
      rw [index_eq (by omega)]
      show (assign buf k src[b] >>= _) = _
      rw [assign_eq hlt]
      show mergeLoop le src mid hi a (b + 1) (k + 1) (buf.set k src[b]) = _
      rw [ih (hset _) ha (by omega) hbhi (by omega) (fun x => by rw [List.length_set, hset])
        (by omega), hwrite, hmerge]
    rw [mergeLoop, if_pos (by omega)]
    by_cases hamid : a < mid
    · have hconsa := slice_eq_cons hamid (show mid ≤ src.length by omega)
      by_cases hbhi : b < hi
      · have hconsb := slice_eq_cons hbhi hhi
        rw [takesLeft_eq hamid hbhi (by omega) (by omega)]
        show (if le src[a] src[b] then _ else _) = _
        split_ifs with hle
        · exact hleft hamid (by rw [hconsa, hconsb, List.cons_merge_cons, if_pos hle])
        · exact hright hbhi (by rw [hconsa, hconsb, List.cons_merge_cons, if_neg hle])
      · obtain rfl : b = hi := by omega
        rw [takesLeft, if_pos hamid, if_pos le_rfl]
        exact hleft hamid (by rw [slice_self, List.merge_right, List.merge_right, hconsa])
    · obtain rfl : a = mid := by omega
      have hbhi : b < hi := by omega
      rw [takesLeft, if_neg hamid]
      exact hright hbhi (by rw [slice_self, List.nil_merge, List.nil_merge, slice_eq_cons hbhi hhi])

/-- The first two runs from `lo` on, clamped to the length. -/
theorem mergePass_drop {w : ℕ} (hw : 0 < w) (hlo : lo < xs.length)
    (hmid : mid = min (lo + w) xs.length) (hhi : hi = min (mid + w) xs.length) : mergePass le w (xs.drop lo) =
      (slice xs lo mid).merge (slice xs mid hi) le ++ mergePass le w (xs.drop (lo + w + w)) := by
  have hsplit : xs.drop lo = slice xs lo mid ++ slice xs mid hi ++ xs.drop hi := by
    rw [slice_append_slice (by omega) (by omega), slice_append_drop (by omega) (by omega)]
  have hdrop : xs.drop (lo + w + w) = xs.drop hi := by
    by_cases hfull : lo + w + w ≤ xs.length
    · congr 1
      omega
    · rw [List.drop_eq_nil_of_le (by omega), List.drop_eq_nil_of_le (by omega)]
  by_cases hlen : xs.length - lo ≤ w
  · obtain rfl : mid = xs.length := by omega
    obtain rfl : hi = xs.length := by omega
    rw [hdrop, slice_self, List.merge_right, slice_length, List.drop_length,
      mergePass_nil, List.append_nil,
      mergePass_of_length_le (by rwa [List.length_drop])]
  · have hrun : (slice xs lo mid).length = w := by
      rw [length_slice]
      omega
    have hrun' : (slice xs mid hi).length = w ∨ (slice xs mid hi).length ≤ w ∧ xs.drop hi = [] := by
      rw [length_slice, List.drop_eq_nil_iff]
      omega
    rw [hdrop, hsplit, mergePass_append hw hrun hrun']

/-- One pass merges the runs two by two. -/
theorem passLoop_eq (le : α → α → Bool) (width : {w : ℕ // 0 < w}) (hlen : buf.length = src.length) (lo : ℕ) :
    passLoop le src.length src width lo buf =
      .ok (buf.take lo ++ mergePass le width (src.drop lo)) := by
  induction hd : src.length - lo using Nat.strongRecOn generalizing lo buf with
  | ind d ih =>
    have hpos := width.2
    rw [passLoop]
    by_cases hlo : lo < src.length
    · obtain ⟨mid, hmid⟩ : ∃ mid, mid = min (lo + width) src.length := ⟨_, rfl⟩
      obtain ⟨hi, hhi⟩ : ∃ hi, hi = min (mid + width) src.length := ⟨_, rfl⟩
      have hmid' : (if lo + width > src.length then src.length else lo + width) = mid := by
        split_ifs <;> omega
      have hhi' : (if mid + width > src.length then src.length else mid + width) = hi := by
        split_ifs <;> omega
      have hlower : (buf.take lo ++ (slice src lo mid).merge (slice src mid hi) le).length = hi := by
        rw [List.length_append, List.length_take, List.length_merge, length_slice, length_slice]
        omega
      have htake : (buf.take lo ++ (slice src lo mid).merge (slice src mid hi) le ++
          buf.drop hi).take (lo + width + width) =
          buf.take lo ++ (slice src lo mid).merge (slice src mid hi) le := by
        by_cases hfull : lo + width + width ≤ src.length
        · exact List.take_left' (by omega)
        · rw [List.drop_eq_nil_of_le (by omega), List.append_nil,
            List.take_of_length_le (by omega)]
      rw [if_pos hlo]
      show (mergeLoop le src _ _ lo _ lo buf >>= _) = _
      rw [hmid', hhi', mergeLoop_eq hlen (by omega) le_rfl (by omega) (by omega) rfl]
      show passLoop le src.length src width (lo + width + width) _ = _
      rw [ih _ (by omega) (by rw [List.length_append, hlower, List.length_drop]; omega) _ rfl,
        htake, List.append_assoc, ← mergePass_drop hpos hlo hmid hhi]
    · rw [if_neg hlo, List.take_of_length_le (by omega), List.drop_eq_nil_of_le (by omega),
        mergePass_nil, List.append_nil]

theorem copyLoop_eq (hlen : buf.length = src.length) (hi : i ≤ src.length) :
    copyLoop src.length i src buf = .ok (src.take i ++ buf.drop i) := by
  obtain ⟨n, hn⟩ : ∃ n, src.length = n := ⟨_, rfl⟩
  rw [hn] at hi hlen ⊢
  induction hd : n - i generalizing i src with
  | zero =>
    obtain rfl : i = n := by omega
    rw [copyLoop, if_neg (lt_irrefl i), List.drop_eq_nil_of_le (by omega), List.append_nil,
      List.take_of_length_le (by omega)]
  | succ d ih =>
    have hlt : i < src.length := by omega
    rw [copyLoop, if_pos (by omega), index_eq (by omega)]
    show (assign src i buf[i] >>= _) = _
    rw [assign_eq hlt]
    show copyLoop n (i + 1) (src.set i buf[i]) buf = _
    rw [ih (by omega) (by rw [List.length_set, hn]) (by omega), take_set_append hlt,
      ← List.drop_eq_getElem_cons (by omega)]

/-- From sorted runs of the current width on, the loop sorts. -/
theorem sortLoop_spec (hle : TotalPreorder le) (width : {w : ℕ // 0 < w})
    (hruns : Runs le width xs src) (hlen : buf.length = src.length) :
    ∃ out, sortLoop le src.length width src buf = .ok out ∧ StablySorted le xs out := by
  obtain ⟨n, hn⟩ : ∃ n, src.length = n := ⟨_, rfl⟩
  rw [hn] at hlen ⊢
  induction hd : n - width.val using Nat.strongRecOn generalizing width src buf with
  | ind d ih =>
    have hpos := width.2
    rw [sortLoop]
    by_cases hlt : width.val < n
    · have hpass := passLoop_eq le width (hlen.trans hn.symm) 0
      have hrunsw := runs_mergePass hle hpos hruns
      have hmerged : (mergePass le width src).length = n := by
        rw [hrunsw.length_eq, ← hruns.length_eq, hn]
      rw [List.take_zero, List.nil_append, List.drop_zero, hn] at hpass
      have hcopy := copyLoop_eq (i := 0) (hmerged.trans hn.symm) (Nat.zero_le _)
      rw [List.take_zero, List.nil_append, List.drop_zero, hn] at hcopy
      rw [if_pos hlt, hpass]
      show ∃ out, (copyLoop n 0 src (mergePass le width src) >>= _) = .ok out ∧ _
      rw [hcopy]
      exact ih _ (by show n - (width.val + width.val) < d; omega) ⟨width + width, _⟩
        hrunsw hmerged hmerged rfl
    · rw [if_neg hlt]
      refine ⟨src, rfl, stablySorted_of_runs hruns ?_⟩
      rw [← hruns.length_eq]
      omega

theorem sortWith_spec (hle : TotalPreorder le) (arr : List α) :
    ∃ out, sortWith le arr = .ok out ∧ StablySorted le arr out := by
  rw [sortWith]
  split_ifs with hlen
  · exact ⟨arr, rfl, stablySorted_of_length_le_one (by omega)⟩
  · exact sortLoop_spec hle _ (runs_one arr) rfl

/-! ## The three functions -/

/-- Negative, zero or positive as one element comes before the other, is tied with it or comes
behind it. -/
structure Comparator (cmp : α → α → ℤ) : Prop where
  trans : ∀ x y z, cmp x y ≤ 0 → cmp y z ≤ 0 → cmp x z ≤ 0
  sign : ∀ x y, 0 < cmp x y ↔ cmp y x < 0

variable {cmp : α → α → ℤ}

theorem totalPreorder_of_comparator (hcmp : Comparator cmp) :
    TotalPreorder fun x y => decide (cmp x y ≤ 0) where
  trans x y z hxy hyz :=
    decide_eq_true (hcmp.trans x y z (of_decide_eq_true hxy) (of_decide_eq_true hyz))
  total x y := by
    rw [Bool.or_eq_true, decide_eq_true_eq, decide_eq_true_eq]
    have hsign := hcmp.sign x y
    omega

/-- What is tied compares equal. -/
theorem tied_comparator (hcmp : Comparator cmp) (x y : α) :
    tied (fun x y => decide (cmp x y ≤ 0)) x y = decide (cmp x y = 0) := by
  have hsign := hcmp.sign x y
  have hsign' := hcmp.sign y x
  rw [tied, ← Bool.decide_and]
  exact decide_eq_decide.mpr (by omega)

theorem totalPreorder_of_key [Preorder κ] [DecidableLE κ] (htotal : ∀ a b : κ, a ≤ b ∨ b ≤ a)
    (keyFn : α → κ) : TotalPreorder fun x y => decide (keyFn x ≤ keyFn y) where
  trans _ _ _ hxy hyz := decide_eq_true ((of_decide_eq_true hxy).trans (of_decide_eq_true hyz))
  total x y := by
    rw [Bool.or_eq_true, decide_eq_true_eq, decide_eq_true_eq]
    exact htotal _ _

/-- The comparator of `sort_by_key` compares the keys. -/
theorem sortByKey_eq [Preorder κ] [DecidableLT κ] [DecidableLE κ]
    (htotal : ∀ a b : κ, a ≤ b ∨ b ≤ a) (arr : List α) (keyFn : α → κ) :
    sortByKey arr keyFn = sortWith (fun x y => keyFn x ≤ keyFn y) arr := by
  rw [sortByKey, sortBy]
  congr 1
  funext x y
  refine decide_eq_decide.mpr ?_
  have hiff : keyFn x ≤ keyFn y ↔ ¬keyFn y < keyFn x := by
    rw [lt_iff_le_not_ge, not_and_not_right]
    exact ⟨fun h _ => h, fun h => (htotal _ _).elim id h⟩
  rw [hiff]
  dsimp only
  split_ifs with hlt hgt
  · exact iff_of_true (by decide) hlt.asymm
  · exact iff_of_false (by decide) (not_not.mpr hgt)
  · exact iff_of_true le_rfl hgt

/-- The three functions return a permutation in order, in which what compares equal has kept its
order. -/
theorem sorts_stably {β : Type} [Preorder β] [DecidableLE β] [Preorder κ] [DecidableLT κ]
    [DecidableLE κ] (hcmp : Comparator cmp) (hβ : ∀ a b : β, a ≤ b ∨ b ≤ a)
    (hκ : ∀ a b : κ, a ≤ b ∨ b ≤ a) (arr : List α) (nums : List β) (keyFn : α → κ) :
    (∃ out, sortBy arr cmp = .ok out ∧ out.Perm arr ∧ out.Pairwise (fun x y => cmp x y ≤ 0) ∧
      ∀ x, out.filter (fun y => cmp x y = 0) = arr.filter fun y => cmp x y = 0) ∧
    (∃ out, sort nums = .ok out ∧ StablySorted (fun x y => x ≤ y) nums out) ∧
    ∃ out, sortByKey arr keyFn = .ok out ∧
      StablySorted (fun x y => keyFn x ≤ keyFn y) arr out := by
  refine ⟨?_, ?_, ?_⟩
  · obtain ⟨out, hout, hsorted⟩ := sortWith_spec (totalPreorder_of_comparator hcmp) arr
    refine ⟨out, hout, hsorted.perm, hsorted.sorted.imp of_decide_eq_true, fun x => ?_⟩
    have htied : tied (fun x y => decide (cmp x y ≤ 0)) x = fun y => decide (cmp x y = 0) :=
      funext (tied_comparator hcmp x)
    have hstable := hsorted.stable x
    rwa [htied] at hstable
  · exact sortWith_spec (totalPreorder_of_key hβ id) nums
  · rw [sortByKey_eq hκ]
    exact sortWith_spec (totalPreorder_of_key hκ keyFn) arr

/-- Pairs by their first number, which the comparator subtracts, a list of numbers, and pairs by
their second number. -/
theorem sorts_stably_pairs :
    (∃ out, sortBy [((3 : ℤ), (1 : ℤ)), (1, 2), (3, 0)] (fun x y => x.1 - y.1) = .ok out ∧
      out.Perm [(3, 1), (1, 2), (3, 0)] ∧ out.Pairwise (fun x y => x.1 - y.1 ≤ 0) ∧
      ∀ x : ℤ × ℤ, out.filter (fun y => x.1 - y.1 = 0) =
        [((3 : ℤ), (1 : ℤ)), (1, 2), (3, 0)].filter fun y => x.1 - y.1 = 0) ∧
    (∃ out, sort [(2 : ℤ), 1] = .ok out ∧ StablySorted (fun x y => x ≤ y) [2, 1] out) ∧
    ∃ out, sortByKey [((3 : ℤ), (1 : ℤ)), (1, 2), (3, 0)] Prod.snd = .ok out ∧
      StablySorted (fun x y => x.2 ≤ y.2) [(3, 1), (1, 2), (3, 0)] out :=
  sorts_stably ⟨fun x y z => by omega, fun x y => by omega⟩ le_total le_total
    [(3, 1), (1, 2), (3, 0)] [2, 1] Prod.snd

end Kryos.Stdlib.Iter
