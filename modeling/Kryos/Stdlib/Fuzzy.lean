import Kryos.Lib.EditDistance
import Kryos.Lib.Utf8
import Kryos.Stdlib.Str

/-!
# Fuzzy matching

The distance of two texts is computed over their code points, by a table of which two rows are kept.
The code points are taken by a walk that trusts the first bytes; whether the texts are UTF-8 is
looked at after that.

## Main results

* `levenshtein_encode` — on UTF-8, the distance is the least number of edits of code points
* `levenshtein_ok_iff` — the walk must not step past the end of a text
* `fuzzyRight_iff` — when the distance and the closest match are right
-/

namespace Kryos.Stdlib.Fuzzy

open Str EditDistance

/-! ## The functions -/

/-- `char_code` of a text of at most one character: a byte that is none is its own code. -/
def charCode : Text → ℕ
  | [] => 0
  | [b] => b.toNat
  | b :: bytes => (Utf8.decodeChar (b :: bytes)).elim b.toNat Char.toNat

/-- The step of `_cps` over a character that begins with the given byte. -/
def stepOf (b : ℕ) : ℕ := if b ≥ 240 then 4 else if b ≥ 224 then 3 else if b ≥ 192 then 2 else 1

theorem stepOf_pos (b : ℕ) : 0 < stepOf b := by
  rw [stepOf]
  split_ifs <;> decide

def cpsFrom (s : Text) (i : ℕ) (out : List ℕ) : Except Failure (List ℕ) :=
  if i < s.length then do
    let first ← charAt s i
    let step := stepOf (charCode first)
    let ch ← substring s i (i + step)
    cpsFrom s (i + step) (out ++ [charCode ch])
  else .ok out
termination_by s.length - i
decreasing_by
  have := stepOf_pos (charCode first)
  omega

/-- `_cps` -/
def cps (s : Text) : Except Failure (List ℕ) := cpsFrom s 0 []

/-- The step of `codepoint_count`, which some bytes do not have. -/
def countStep (b : ℕ) : Option ℕ :=
  if b < 128 then some 1
  else if b < 192 then none
  else if b < 224 then some 2
  else if b < 240 then some 3
  else if b < 248 then some 4
  else none

theorem countStep_pos {b step : ℕ} (h : countStep b = some step) : 0 < step := by
  rw [countStep] at h
  split_ifs at h <;> cases h <;> decide

/-- Whether the bytes from `j` on are continuation bytes. -/
def continues (s : Text) (j stop : ℕ) : Except Failure Bool :=
  if j < stop then do
    let cb := charCode (← charAt s j)
    if cb < 128 ∨ cb ≥ 192 then return false
    continues s (j + 1) stop
  else .ok true
termination_by stop - j

def countFrom (s : Text) (i count : ℕ) : Except Failure ℤ :=
  if i < s.length then do
    let first ← charAt s i
    match hstep : countStep (charCode first) with
    | none => return -1
    | some step =>
      if i + step > s.length then return -1
      if !(← continues s (i + 1) (i + step)) then return -1
      countFrom s (i + step) (count + 1)
  else .ok count
termination_by s.length - i
decreasing_by
  have := countStep_pos hstep
  omega

def codepointCount (s : Text) : Except Failure ℤ := countFrom s 0 0

/-- The entry of the current row at `j2`. -/
def cell (aCps bCps prev cur : List ℕ) (i j2 : ℕ) : Except Failure ℕ := do
  let ac ← item aCps (i - 1)
  let bc ← item bCps (j2 - 1)
  let cost := if ac = bc then 0 else 1
  let del := (← item prev j2) + 1
  let ins := (← item cur (j2 - 1)) + 1
  let sub := (← item prev (j2 - 1)) + cost
  let m := if ins < del then ins else del
  return if sub < m then sub else m

def rowLoop (aCps bCps prev : List ℕ) (n i j2 : ℕ) (cur : List ℕ) : Except Failure (List ℕ) :=
  if j2 ≤ n then do
    let m ← cell aCps bCps prev cur i j2
    let cur ← setItem cur j2 m
    rowLoop aCps bCps prev n i (j2 + 1) cur
  else .ok cur
termination_by n + 1 - j2

def copyLoop (cur : List ℕ) (n k : ℕ) (prev : List ℕ) : Except Failure (List ℕ) :=
  if k ≤ n then do
    let prev ← setItem prev k (← item cur k)
    copyLoop cur n (k + 1) prev
  else .ok prev
termination_by n + 1 - k

def tableLoop (aCps bCps : List ℕ) (m n i : ℕ) (prev cur : List ℕ) : Except Failure ℕ :=
  if i ≤ m then do
    let cur ← setItem cur 0 i
    let cur ← rowLoop aCps bCps prev n i 1 cur
    let prev ← copyLoop cur n 0 prev
    tableLoop aCps bCps m n (i + 1) prev cur
  else item prev n
termination_by m + 1 - i

def levenshtein (a b : Text) : Except Failure ℕ := do
  let aCps ← cps a
  let bCps ← cps b
  let m ← codepointCount a
  let n ← codepointCount b
  if m < 0 ∨ n < 0 then
    return if a.length > b.length then a.length - b.length else b.length - a.length
  if m = 0 then return n.toNat
  if n = 0 then return m.toNat
  tableLoop aCps bCps m.toNat n.toNat 1 (List.range (n.toNat + 1))
    (List.replicate (n.toNat + 1) 0)

/-- The loop of `closest`, which gives the distance of the best match and its index. -/
def closestFrom (query : Text) (bestD best : ℤ) (i : ℕ) : List Text → Except Failure (ℤ × ℤ)
  | [] => .ok (bestD, best)
  | candidate :: candidates => do
    let d ← levenshtein query candidate
    if (d : ℤ) < bestD then closestFrom query d i (i + 1) candidates
    else closestFrom query bestD best (i + 1) candidates

def closest (query : Text) (candidates : List Text) (maxDist : Int64) : Except Failure ℤ := do
  let (bestD, best) ← closestFrom query (maxDist + 1).toInt (-1) 0 candidates
  return if bestD > maxDist.toInt then -1 else best

/-! ## The table -/

section Table

variable {aCps bCps prev cur row : List ℕ} {i j k x : ℕ}

/-- The distance of the first `i` and the first `j` code points. -/
def prefixDistance (aCps bCps : List ℕ) (i j : ℕ) : ℕ := distance (aCps.take i) (bCps.take j)

theorem prefixDistance_zero_left (hj : j ≤ bCps.length) : prefixDistance aCps bCps 0 j = j := by
  rw [prefixDistance, List.take_zero, distance_nil_left, List.length_take_of_le hj]

theorem prefixDistance_zero_right (hi : i ≤ aCps.length) : prefixDistance aCps bCps i 0 = i := by
  rw [prefixDistance, List.take_zero, distance_nil_right, List.length_take_of_le hi]

theorem prefixDistance_succ (hi : i < aCps.length) (hj : j < bCps.length) :
    prefixDistance aCps bCps (i + 1) (j + 1) =
      min (min (prefixDistance aCps bCps i (j + 1) + 1) (prefixDistance aCps bCps (i + 1) j + 1))
        (prefixDistance aCps bCps i j + if aCps[i] = bCps[j] then 0 else 1) := by
  simp only [prefixDistance]
  rw [List.take_succ_eq_append_getElem hi, List.take_succ_eq_append_getElem hj, distance_concat]

theorem item_eq {α : Type} {xs : List α} {x : α} (h : xs[i]? = some x) : item xs i = .ok x := by
  rw [item, h]

/-- The row for `i` is filled in below `k`. -/
structure Row (aCps bCps : List ℕ) (i k : ℕ) (row : List ℕ) : Prop where
  length_eq : row.length = bCps.length + 1
  getElem?_eq : ∀ j < k, row[j]? = some (prefixDistance aCps bCps i j)

theorem Row.setItem (h : Row aCps bCps i k row) (hk : k ≤ bCps.length)
    (hx : x = prefixDistance aCps bCps i k) :
    ∃ row', setItem row k x = .ok row' ∧ Row aCps bCps i (k + 1) row' := by
  have hlt : k < row.length := by
    rw [h.length_eq]
    omega
  refine ⟨row.set k x, if_pos hlt, by rw [List.length_set, h.length_eq], fun j hj => ?_⟩
  by_cases hjk : j = k
  · rw [hjk, List.getElem?_set_self hlt, hx]
  · rw [List.getElem?_set_ne (Ne.symm hjk)]
    exact h.getElem?_eq j (by omega)

theorem cell_eq (hprev : Row aCps bCps i (bCps.length + 1) prev)
    (hcur : Row aCps bCps (i + 1) (j + 1) cur) (hi : i < aCps.length) (hj : j < bCps.length) :
    cell aCps bCps prev cur (i + 1) (j + 1) = .ok (prefixDistance aCps bCps (i + 1) (j + 1)) := by
  have ha : item aCps (i + 1 - 1) = .ok aCps[i] := item_ok hi
  have hb : item bCps (j + 1 - 1) = .ok bCps[j] := item_ok hj
  rw [cell, ha, ok_bind, hb, ok_bind, item_eq (hprev.getElem?_eq (j + 1) (by omega)), ok_bind,
    item_eq (hcur.getElem?_eq (j + 1 - 1) (by omega)), ok_bind,
    item_eq (hprev.getElem?_eq (j + 1 - 1) (by omega)), ok_bind]
  show Except.ok _ = _
  rw [prefixDistance_succ hi hj, Nat.add_sub_cancel]
  congr 1
  split_ifs <;> omega

theorem rowLoop_eq (hprev : Row aCps bCps i (bCps.length + 1) prev) (hi : i < aCps.length)
    (hcur : Row aCps bCps (i + 1) (j + 1) cur) (hj : j ≤ bCps.length) :
    ∃ cur', rowLoop aCps bCps prev bCps.length (i + 1) (j + 1) cur = .ok cur' ∧
      Row aCps bCps (i + 1) (bCps.length + 1) cur' := by
  induction hd : bCps.length - j generalizing j cur with
  | zero =>
    obtain rfl : j = bCps.length := by omega
    rw [rowLoop, if_neg (by omega)]
    exact ⟨cur, rfl, hcur⟩
  | succ d ih =>
    obtain ⟨cur', hset, hcur'⟩ := hcur.setItem (show j + 1 ≤ bCps.length by omega) rfl
    rw [rowLoop, if_pos (by omega), cell_eq hprev hcur hi (by omega), ok_bind, hset, ok_bind]
    exact ih hcur' (by omega) (by omega)

theorem copyLoop_eq (hcur : Row aCps bCps i (bCps.length + 1) cur) (hprev : Row aCps bCps i k prev)
    (hk : k ≤ bCps.length + 1) :
    ∃ prev', copyLoop cur bCps.length k prev = .ok prev' ∧
      Row aCps bCps i (bCps.length + 1) prev' := by
  induction hd : bCps.length + 1 - k generalizing k prev with
  | zero =>
    obtain rfl : k = bCps.length + 1 := by omega
    rw [copyLoop, if_neg (by omega)]
    exact ⟨prev, rfl, hprev⟩
  | succ d ih =>
    obtain ⟨prev', hset, hprev'⟩ := hprev.setItem (show k ≤ bCps.length by omega) rfl
    rw [copyLoop, if_pos (by omega), item_eq (hcur.getElem?_eq k (by omega)), ok_bind, hset, ok_bind]
    exact ih hprev' (by omega) (by omega)

theorem tableLoop_eq (hprev : Row aCps bCps i (bCps.length + 1) prev)
    (hcur : cur.length = bCps.length + 1) (hi : i ≤ aCps.length) :
    tableLoop aCps bCps aCps.length bCps.length (i + 1) prev cur = .ok (distance aCps bCps) := by
  induction hd : aCps.length - i generalizing i prev cur with
  | zero =>
    obtain rfl : i = aCps.length := by omega
    rw [tableLoop, if_neg (by omega), item_eq (hprev.getElem?_eq bCps.length (by omega)),
      prefixDistance, List.take_length, List.take_length]
  | succ d ih =>
    have hstart : Row aCps bCps (i + 1) 0 cur := ⟨hcur, fun j hj => absurd hj (Nat.not_lt_zero j)⟩
    have hfirst : i + 1 = prefixDistance aCps bCps (i + 1) 0 :=
      (prefixDistance_zero_right (by omega)).symm
    obtain ⟨cur₁, hset, hcur₁⟩ := hstart.setItem (Nat.zero_le _) hfirst
    obtain ⟨cur₂, hrow, hcur₂⟩ := rowLoop_eq hprev (by omega) hcur₁ (Nat.zero_le _)
    have hold : Row aCps bCps (i + 1) 0 prev :=
      ⟨hprev.length_eq, fun j hj => absurd hj (Nat.not_lt_zero j)⟩
    obtain ⟨prev', hcopy, hprev'⟩ := copyLoop_eq hcur₂ hold (Nat.zero_le _)
    rw [tableLoop, if_pos (by omega), hset, ok_bind, hrow, ok_bind, hcopy, ok_bind]
    exact ih hprev' hcur₂.length_eq (by omega) (by omega)

/-- The table for the code points of both texts. -/
theorem table_eq (aCps bCps : List ℕ) :
    tableLoop aCps bCps aCps.length bCps.length 1 (List.range (bCps.length + 1))
      (List.replicate (bCps.length + 1) 0) = .ok (distance aCps bCps) := by
  refine tableLoop_eq ⟨List.length_range, fun j hj => ?_⟩ List.length_replicate (Nat.zero_le _)
  rw [prefixDistance_zero_left (by omega), List.getElem?_range hj]

end Table

/-! ## The walks -/

/-- The walk by first bytes never steps past the end. -/
def complete : Text → Bool
  | [] => true
  | b :: rest =>
    decide (stepOf b.toNat ≤ rest.length + 1) && complete (rest.drop (stepOf b.toNat - 1))
termination_by s => s.length
decreasing_by
  rw [List.length_drop, List.length_cons]
  omega

section Walk

variable {s : Text} {i count : ℕ} {out : List ℕ}

theorem complete_drop (hi : i < s.length) :
    complete (s.drop i) = (decide (i + stepOf s[i].toNat ≤ s.length) &&
      complete (s.drop (i + stepOf s[i].toNat))) := by
  have hpos := stepOf_pos s[i].toNat
  have hlen : stepOf s[i].toNat ≤ (s.drop (i + 1)).length + 1 ↔
      i + stepOf s[i].toNat ≤ s.length := by
    rw [List.length_drop]
    omega
  rw [List.drop_eq_getElem_cons hi, complete, List.drop_drop,
    show i + 1 + (stepOf s[i].toNat - 1) = i + stepOf s[i].toNat by omega]
  simp only [hlen]

theorem cpsFrom_of_lt (hi : i < s.length) :
    cpsFrom s i out = (substring s i (i + stepOf s[i].toNat) >>= fun ch =>
      cpsFrom s (i + stepOf s[i].toNat) (out ++ [charCode ch])) := by
  rw [cpsFrom, if_pos hi, charAt_ok hi, ok_bind]
  rfl

theorem cpsFrom_of_le (hi : s.length ≤ i) : cpsFrom s i out = .ok out := by
  rw [cpsFrom, if_neg (not_lt.mpr hi)]

theorem cpsFrom_ok_iff : (∃ codes, cpsFrom s i out = .ok codes) ↔ complete (s.drop i) = true := by
  induction hd : s.length - i using Nat.strongRecOn generalizing i out with
  | ind d ih =>
    by_cases hi : i < s.length
    · have hpos := stepOf_pos s[i].toNat
      rw [cpsFrom_of_lt hi, complete_drop hi, Bool.and_eq_true, decide_eq_true_eq]
      by_cases hfit : i + stepOf s[i].toNat ≤ s.length
      · rw [substring_ok (by omega) hfit, ok_bind, ih _ (by omega) rfl]
        simp [hfit]
      · rw [substring, if_neg fun h => hfit h.2]
        refine iff_of_false ?_ fun h => hfit h.1
        rintro ⟨codes, h⟩
        cases h
    · rw [cpsFrom_of_le (not_lt.mp hi), List.drop_eq_nil_of_le (not_lt.mp hi), complete]
      exact iff_of_true ⟨out, rfl⟩ rfl

theorem continues_ok {j stop : ℕ} (hstop : stop ≤ s.length) :
    ∃ r, continues s j stop = .ok r ∧
      ((∀ k (hk : k < s.length), j ≤ k → k < stop → Utf8.isContinuation s[k] = true) →
        r = true) := by
  induction hd : stop - j generalizing j with
  | zero =>
    rw [continues, if_neg (by omega)]
    exact ⟨true, rfl, fun _ => rfl⟩
  | succ d ih =>
    have hj : j < s.length := by omega
    have hcode : charCode [s[j]] = s[j].toNat := rfl
    obtain ⟨r, hr, htrue⟩ := ih (j := j + 1) (by omega)
    rw [continues, if_pos (by omega), charAt_ok hj, ok_bind]
    simp only [hcode]
    split_ifs with hbad
    · refine ⟨false, rfl, fun hall => ?_⟩
      have := hall j hj le_rfl (by omega)
      simp only [Utf8.isContinuation, Bool.and_eq_true, decide_eq_true_eq, UInt8.le_iff_toNat_le,
        UInt8.lt_iff_toNat_lt, UInt8.reduceToNat] at this
      omega
    · exact ⟨r, hr, fun hall => htrue fun k hk hle hlt => hall k hk (by omega) hlt⟩

theorem stepOf_of_countStep {b step : ℕ} (h : countStep b = some step) : stepOf b = step := by
  rw [countStep] at h
  rw [stepOf]
  split_ifs at h ⊢ <;> first | omega | exact Option.some.inj h

theorem countFrom_of_lt (hi : i < s.length) {step : ℕ} (hstep : countStep s[i].toNat = some step) :
    countFrom s i count =
      if i + step > s.length then .ok (-1)
      else continues s (i + 1) (i + step) >>= fun r =>
        if r = true then countFrom s (i + step) (count + 1) else .ok (-1) := by
  rw [countFrom, if_pos hi, charAt_ok hi, ok_bind]
  split
  · rename_i hnone
    rw [show charCode [s[i]] = s[i].toNat from rfl, hstep] at hnone
    cases hnone
  · rename_i step' hsome
    rw [show charCode [s[i]] = s[i].toNat from rfl, hstep] at hsome
    cases hsome
    split_ifs with hlong
    · rfl
    · congr 1
      funext r
      cases r <;> rfl

theorem countFrom_of_le (hi : s.length ≤ i) : countFrom s i count = .ok count := by
  rw [countFrom, if_neg (not_lt.mpr hi)]

theorem countFrom_of_none (hi : i < s.length) (hstep : countStep s[i].toNat = none) :
    countFrom s i count = .ok (-1) := by
  rw [countFrom, if_pos hi, charAt_ok hi, ok_bind]
  split
  · rfl
  · rename_i step hsome
    rw [show charCode [s[i]] = s[i].toNat from rfl, hstep] at hsome
    cases hsome

/-- The count never panics, and where it finds UTF-8, it counts the characters that the other walk
takes. -/
theorem countFrom_spec (s : Text) (i count : ℕ) :
    ∃ n, countFrom s i count = .ok n ∧ (n = -1 ∨ ∃ codes : List ℕ, n = (count + codes.length : ℕ) ∧
      ∀ out, cpsFrom s i out = .ok (out ++ codes)) := by
  induction hd : s.length - i using Nat.strongRecOn generalizing i count with
  | ind d ih =>
    by_cases hi : i < s.length
    · cases hstep : countStep s[i].toNat with
      | none => exact ⟨-1, countFrom_of_none hi hstep, .inl rfl⟩
      | some step =>
        have hpos := countStep_pos hstep
        have hsame := stepOf_of_countStep hstep
        rw [countFrom_of_lt hi hstep]
        split_ifs with hlong
        · exact ⟨-1, rfl, .inl rfl⟩
        · obtain ⟨r, hr, -⟩ := continues_ok (j := i + 1) (not_lt.mp hlong)
          obtain ⟨n, hn, hcases⟩ := ih _ (by omega) (i + step) (count + 1) rfl
          rw [hr, ok_bind]
          cases r with
          | false => exact ⟨-1, rfl, .inl rfl⟩
          | true =>
            refine ⟨n, hn, hcases.imp_right ?_⟩
            rintro ⟨codes, hcount, hwalk⟩
            refine ⟨charCode (Segments.slice s i (i + step)) :: codes, ?_, fun out => ?_⟩
            · rw [hcount, List.length_cons]
              omega
            · rw [cpsFrom_of_lt hi, hsame, substring_ok (by omega) (not_lt.mp hlong), ok_bind, hwalk,
                List.append_assoc, List.singleton_append]
    · have hle := not_lt.mp hi
      refine ⟨count, countFrom_of_le hle, .inr ⟨[], rfl, fun out => ?_⟩⟩
      rw [cpsFrom_of_le hle, List.append_nil]

/-! ### UTF-8 -/

theorem countStep_of_width {b : UInt8} {w : ℕ} (h : Utf8.width b = some w) :
    countStep b.toNat = some w := by
  rw [Utf8.width] at h
  simp only [UInt8.lt_iff_toNat_lt, UInt8.le_iff_toNat_le, UInt8.reduceToNat] at h
  rw [countStep]
  split_ifs at h ⊢ <;> omega

theorem charCode_encodeChar (c : Char) : charCode (String.utf8EncodeChar c) = c.toNat := by
  have hdecode := Utf8.decodeChar_encodeChar c
  obtain ⟨b, rest, hb, -, -, hsize, -⟩ := Utf8.encodeChar_shape c
  cases rest with
  | nil =>
    have hlen := Utf8.length_encodeChar c
    have hone : c.utf8Size = 1 := by
      rw [← hlen, hb]
      rfl
    have hsmall : c.val.toNat ≤ 0x7F := UInt32.le_iff_toNat_le.mp (Char.utf8Size_eq_one_iff.mp hone)
    rw [String.utf8EncodeChar_eq_singleton hone]
    exact Nat.mod_eq_of_lt (by omega)
  | cons b' rest =>
    rw [hb] at hdecode ⊢
    rw [charCode, hdecode]
    · rfl
    · exact List.cons_ne_nil b' rest

/-- Both walks over the rest of a text that is UTF-8. -/
theorem walks_encode (count : ℕ) (out : List ℕ) (cs : List Char) (h : s.drop i = Utf8.encode cs) :
    countFrom s i count = .ok (count + cs.length : ℕ) ∧
      cpsFrom s i out = .ok (out ++ cs.map Char.toNat) := by
  induction cs generalizing i count out with
  | nil =>
    have hle : s.length ≤ i := List.drop_eq_nil_iff.mp h
    rw [countFrom_of_le hle, cpsFrom_of_le hle, List.map_nil, List.append_nil]
    exact ⟨rfl, rfl⟩
  | cons c cs ih =>
    obtain ⟨b, rest, hb, hwidth, -, -, hrest⟩ := Utf8.encodeChar_shape c
    have hsize : (b :: rest).length = c.utf8Size := hb ▸ Utf8.length_encodeChar c
    rw [Utf8.encode_cons, hb] at h
    have hi : i < s.length := by
      by_contra hle
      rw [List.drop_eq_nil_of_le (not_lt.mp hle)] at h
      cases h
    have hdrop := h
    rw [List.drop_eq_getElem_cons hi, List.cons_append] at hdrop
    obtain ⟨hfirst, htail⟩ := List.cons.inj hdrop
    have hstep : countStep s[i].toNat = some c.utf8Size := by
      rw [hfirst]
      exact countStep_of_width hwidth
    have hlen := congrArg List.length h
    rw [List.length_drop, List.length_append, hsize] at hlen
    have hfit : i + c.utf8Size ≤ s.length := by omega
    have hbehind : s.drop (i + c.utf8Size) = Utf8.encode cs := by
      rw [← List.drop_drop, h, ← hsize, List.drop_left]
    have hchar : Segments.slice s i (i + c.utf8Size) = String.utf8EncodeChar c := by
      rw [hb, ← hsize]
      exact slice_of_drop_eq h
    obtain ⟨r, hr, htrue⟩ := continues_ok (j := i + 1) hfit
    have hcont : r = true := htrue fun k hk hle hlt => by
      rw [List.length_cons] at hsize
      have hlt' : k - (i + 1) < rest.length := by omega
      have hget : s[k]? = rest[k - (i + 1)]? := by
        rw [← List.getElem?_append_left hlt', ← htail, List.getElem?_drop,
          Nat.add_sub_cancel' hle]
      rw [List.getElem?_eq_getElem hk, List.getElem?_eq_getElem hlt'] at hget
      rw [Option.some.inj hget]
      exact hrest _ (List.getElem_mem _)
    obtain ⟨hcount, -⟩ := ih (count + 1) out hbehind
    obtain ⟨-, hwalk⟩ := ih count (out ++ [c.toNat]) hbehind
    constructor
    · rw [countFrom_of_lt hi hstep, if_neg (not_lt.mpr hfit), hr, ok_bind, if_pos hcont, hcount,
        List.length_cons, Nat.add_assoc, Nat.add_comm 1]
    · rw [cpsFrom_of_lt hi, stepOf_of_countStep hstep, substring_ok (by omega) hfit, ok_bind, hchar,
        charCode_encodeChar, hwalk, List.append_assoc, List.map_cons, List.singleton_append]

end Walk

/-! ## The distance -/

section Distance

variable {a b : Text}

theorem cps_ok_iff (s : Text) : (∃ codes, cps s = .ok codes) ↔ complete s = true := by
  rw [cps, cpsFrom_ok_iff, List.drop_zero]

/-- The code points and the count of a text that is UTF-8. -/
theorem walks_of_encode (cs : List Char) : cps (Utf8.encode cs) = .ok (cs.map Char.toNat) ∧
    codepointCount (Utf8.encode cs) = .ok cs.length := by
  have hdrop : (Utf8.encode cs).drop 0 = Utf8.encode cs := List.drop_zero
  have hcount : countFrom (Utf8.encode cs) 0 0 = .ok (0 + cs.length : ℕ) :=
    (walks_encode 0 [] cs hdrop).1
  have hwalk : cpsFrom (Utf8.encode cs) 0 [] = .ok ([] ++ cs.map Char.toNat) :=
    (walks_encode 0 [] cs hdrop).2
  rw [Nat.zero_add] at hcount
  exact ⟨hwalk, hcount⟩

/-- What is left when the code points and the counts agree. -/
theorem levenshtein_of_counts {aCps bCps : List ℕ} (ha : cps a = .ok aCps) (hb : cps b = .ok bCps)
    (hm : codepointCount a = .ok aCps.length) (hn : codepointCount b = .ok bCps.length) :
    levenshtein a b = .ok (distance aCps bCps) := by
  rw [levenshtein, ha, ok_bind, hb, ok_bind, hm, ok_bind, hn, ok_bind,
    if_neg (by omega)]
  simp only [Nat.cast_eq_zero, Int.toNat_natCast]
  split_ifs with hm0 hn0
  · rw [List.length_eq_zero_iff.mp hm0, distance_nil_left]
    rfl
  · rw [List.length_eq_zero_iff.mp hn0, distance_nil_right]
    rfl
  · exact table_eq aCps bCps

theorem levenshtein_encode (cs ds : List Char) :
    levenshtein (Utf8.encode cs) (Utf8.encode ds) = .ok (distance cs ds) := by
  have hinj : Function.Injective Char.toNat := Function.LeftInverse.injective Char.ofNat_toNat
  obtain ⟨ha, hm⟩ := walks_of_encode cs
  obtain ⟨hb, hn⟩ := walks_of_encode ds
  rw [← List.length_map Char.toNat] at hm hn
  rw [levenshtein_of_counts ha hb hm hn, distance_map hinj]

/-- The distance panics if and only if one of the walks steps past the end. -/
theorem levenshtein_ok_iff : (∃ n, levenshtein a b = .ok n) ↔ complete a = true ∧ complete b = true := by
  constructor
  · rintro ⟨n, hn⟩
    rw [levenshtein] at hn
    cases ha : cps a with
    | error e => rw [ha] at hn; cases hn
    | ok aCps =>
      cases hb : cps b with
      | error e => rw [ha, ok_bind, hb] at hn; cases hn
      | ok bCps => exact ⟨(cps_ok_iff a).mp ⟨aCps, ha⟩, (cps_ok_iff b).mp ⟨bCps, hb⟩⟩
  · rintro ⟨hca, hcb⟩
    obtain ⟨aCps, ha⟩ := (cps_ok_iff a).mpr hca
    obtain ⟨bCps, hb⟩ := (cps_ok_iff b).mpr hcb
    obtain ⟨m, hm, hmcases⟩ := countFrom_spec a 0 0
    obtain ⟨n, hn, hncases⟩ := countFrom_spec b 0 0
    by_cases hinvalid : m < 0 ∨ n < 0
    · rw [levenshtein, ha, ok_bind, hb, ok_bind, codepointCount, hm, ok_bind, codepointCount, hn,
        ok_bind, if_pos hinvalid]
      exact ⟨_, rfl⟩
    · obtain ⟨aCodes, hacount, hawalk⟩ := hmcases.resolve_left fun h => hinvalid (.inl (by omega))
      obtain ⟨bCodes, hbcount, hbwalk⟩ := hncases.resolve_left fun h => hinvalid (.inr (by omega))
      rw [cps, hawalk] at ha
      rw [cps, hbwalk] at hb
      cases ha
      cases hb
      rw [hacount, Nat.zero_add] at hm
      rw [hbcount, Nat.zero_add] at hn
      exact ⟨_, levenshtein_of_counts (hawalk []) (hbwalk []) hm hn⟩

end Distance

/-! ## The closest match -/

/-- The index of the first of the least distances that are not above the limit, or -1. -/
def FirstClosest (distances : List ℕ) (maxDist r : ℤ) : Prop :=
  (∃ (j : ℕ) (h : j < distances.length), r = j ∧ (distances[j] : ℤ) ≤ maxDist ∧
    (∀ d ∈ distances, distances[j] ≤ d) ∧ ∀ d ∈ distances.take j, distances[j] < d) ∨
  r = -1 ∧ ∀ d ∈ distances, maxDist < (d : ℤ)

/-- What the loop knows after the given distances. -/
def Best (limit : ℤ) (distances : List ℕ) (bestD best : ℤ) : Prop :=
  (bestD = limit ∧ best = -1 ∧ ∀ d ∈ distances, limit ≤ (d : ℤ)) ∨
  ∃ (j : ℕ) (h : j < distances.length), best = j ∧ bestD = distances[j] ∧ bestD < limit ∧
    (∀ d ∈ distances, distances[j] ≤ d) ∧ ∀ d ∈ distances.take j, distances[j] < d

section Closest

variable {limit bestD best : ℤ} {distances : List ℕ} {d : ℕ} {q : List Char}

/-- A distance below all before it. -/
theorem Best.less (h : Best limit distances bestD best) (hd : (d : ℤ) < bestD) :
    Best limit (distances ++ [d]) d distances.length := by
  have hall : bestD ≤ limit ∧ ∀ d' ∈ distances, d < d' := by
    rcases h with ⟨rfl, -, hall⟩ | ⟨j, hj, -, rfl, hlt, hall, -⟩
    · refine ⟨le_rfl, fun d' hd' => ?_⟩
      have := hall d' hd'
      omega
    · refine ⟨hlt.le, fun d' hd' => ?_⟩
      have := hall d' hd'
      omega
  have hlen : distances.length < (distances ++ [d]).length := by simp
  have hlast : (distances ++ [d])[distances.length] = d := by simp
  refine .inr ⟨distances.length, hlen, rfl, by rw [hlast], hd.trans_le hall.1, ?_, ?_⟩
  · intro d' hd'
    rw [hlast]
    rcases List.mem_append.mp hd' with hd' | hd'
    · exact (hall.2 d' hd').le
    · rw [List.mem_singleton.mp hd']
  · intro d' hd'
    rw [hlast]
    rw [List.take_left] at hd'
    exact hall.2 d' hd'

theorem Best.notLess (h : Best limit distances bestD best) (hd : ¬(d : ℤ) < bestD) :
    Best limit (distances ++ [d]) bestD best := by
  rcases h with ⟨rfl, rfl, hall⟩ | ⟨j, hj, rfl, rfl, hlt, hall, hbefore⟩
  · refine .inl ⟨rfl, rfl, fun d' hd' => ?_⟩
    rcases List.mem_append.mp hd' with hd' | hd'
    · exact hall d' hd'
    · rw [List.mem_singleton.mp hd']
      exact not_lt.mp hd
  · have hlen : j < (distances ++ [d]).length := by
      rw [List.length_append]
      omega
    have hget : (distances ++ [d])[j] = distances[j] := List.getElem_append_left hj
    refine .inr ⟨j, hlen, rfl, by rw [hget], hlt, ?_, ?_⟩
    · intro d' hd'
      rw [hget]
      rcases List.mem_append.mp hd' with hd' | hd'
      · exact hall d' hd'
      · rw [List.mem_singleton.mp hd']
        exact_mod_cast not_lt.mp hd
    · intro d' hd'
      rw [hget]
      rw [List.take_append_of_le_length hj.le] at hd'
      exact hbefore d' hd'

theorem closestFrom_encode (h : Best limit distances bestD best) (cs : List (List Char)) :
    ∃ bestD' best', closestFrom (Utf8.encode q) bestD best distances.length (cs.map Utf8.encode) =
        .ok (bestD', best') ∧
      Best limit (distances ++ cs.map (distance q)) bestD' best' := by
  induction cs generalizing distances bestD best with
  | nil => exact ⟨bestD, best, rfl, by rwa [List.map_nil, List.append_nil]⟩
  | cons c cs ih =>
    rw [List.map_cons, closestFrom, levenshtein_encode, ok_bind]
    have hlen : (distances ++ [distance q c]).length = distances.length + 1 := by simp
    have hmap : distances ++ (c :: cs).map (distance q) =
        distances ++ [distance q c] ++ cs.map (distance q) := by simp
    rw [hmap, ← hlen]
    split_ifs with hless
    · exact ih (h.less hless)
    · exact ih (h.notLess hless)

theorem closest_encode (cs : List (List Char)) (maxDist : Int64) :
    ∃ bestD best, closest (Utf8.encode q) (cs.map Utf8.encode) maxDist =
        .ok (if bestD > maxDist.toInt then -1 else best) ∧
      Best (maxDist + 1).toInt (cs.map (distance q)) bestD best := by
  have hstart : Best (maxDist + 1).toInt [] (maxDist + 1).toInt (-1) := .inl ⟨rfl, rfl, nofun⟩
  obtain ⟨bestD, best, heq, hbest⟩ := closestFrom_encode (q := q) hstart cs
  refine ⟨bestD, best, ?_, hbest⟩
  rw [List.length_nil] at heq
  rw [closest, heq]
  rfl

/-- The closest match is right unless the limit wraps around and there is something to find. -/
theorem closest_encode_iff (cs : List (List Char)) {maxDist : Int64} :
    (∃ r, closest (Utf8.encode q) (cs.map Utf8.encode) maxDist = .ok r ∧
      FirstClosest (cs.map (distance q)) maxDist.toInt r) ↔
      (maxDist = Int64.maxValue → ∀ c ∈ cs, maxDist.toInt < distance q c) := by
  obtain ⟨bestD, best, heq, hbest⟩ := closest_encode (q := q) cs maxDist
  rw [heq]
  by_cases hmax : maxDist = Int64.maxValue
  · -- the limit is the smallest word, so no distance is ever better
    have hlimit : (maxDist + 1).toInt = -9223372036854775808 := by
      rw [hmax]
      rfl
    rw [hlimit] at hbest
    obtain ⟨rfl, rfl, -⟩ := hbest.resolve_right fun ⟨j, hj, _, hd, hlt, _⟩ => by omega
    have hmax' : maxDist.toInt = 9223372036854775807 := by
      rw [hmax]
      rfl
    rw [if_neg (by omega)]
    constructor
    · rintro ⟨r, hr, hfirst⟩ - c hc
      cases hr
      obtain ⟨-, hall⟩ := hfirst.resolve_left fun ⟨j, _, h, _⟩ => by omega
      exact hall _ (List.mem_map_of_mem hc)
    · intro h
      refine ⟨-1, rfl, .inr ⟨rfl, fun d hd => ?_⟩⟩
      obtain ⟨c, hc, rfl⟩ := List.mem_map.mp hd
      exact h hmax c hc
  · refine iff_of_true ⟨_, rfl, ?_⟩ fun h => absurd h hmax
    have hlt := maxDist.toInt_lt
    have hne : maxDist.toInt ≠ 9223372036854775807 := fun h => hmax (Int64.toInt_inj.mp h)
    have hlimit : (maxDist + 1).toInt = maxDist.toInt + 1 := by
      rw [Int64.toInt_add, show (1 : Int64).toInt = 1 from rfl]
      exact Int.bmod_eq_of_le (by have := maxDist.le_toInt; omega) (by omega)
    rw [hlimit] at hbest
    rcases hbest with ⟨rfl, rfl, hall⟩ | ⟨j, hj, rfl, rfl, hless, hall, hbefore⟩
    · rw [if_pos (by omega)]
      exact .inr ⟨rfl, fun d hd => by have := hall d hd; omega⟩
    · rw [if_neg (by omega)]
      exact .inl ⟨j, hj, rfl, by omega, hall, hbefore⟩

end Closest

/-! ## What the module promises -/

/-- On UTF-8 the distance is the least number of edits of code points, on all texts there is one,
and the closest match is the first one of least distance. -/
structure FuzzyRight (a b query : Text) (candidates : List Text) (maxDist : Int64) : Prop where
  distance_eq : ∀ cs ds, a = Utf8.encode cs → b = Utf8.encode ds →
    ∃ n, levenshtein a b = .ok n ∧ IsLeast {k | Edits k cs ds} n
  returns : ∃ n, levenshtein a b = .ok n
  metric : ∀ cs ds es, ∃ k l m, levenshtein (Utf8.encode cs) (Utf8.encode ds) = .ok k ∧
    levenshtein (Utf8.encode ds) (Utf8.encode cs) = .ok k ∧
    levenshtein (Utf8.encode ds) (Utf8.encode es) = .ok l ∧
    levenshtein (Utf8.encode cs) (Utf8.encode es) = .ok m ∧ (k = 0 ↔ cs = ds) ∧ m ≤ k + l
  closest_eq : ∀ q (cs : List (List Char)), query = Utf8.encode q → candidates = cs.map Utf8.encode →
    ∃ r, closest query candidates maxDist = .ok r ∧
      FirstClosest (cs.map (distance q)) maxDist.toInt r

/-- The distance is right if no walk by first bytes steps past the end of a text, and the closest
match if the limit does not wrap around or nothing is within it. -/
theorem fuzzyRight_iff (a b query : Text) (candidates : List Text) (maxDist : Int64) :
    FuzzyRight a b query candidates maxDist ↔ (complete a = true ∧ complete b = true) ∧
      ∀ q (cs : List (List Char)), query = Utf8.encode q → candidates = cs.map Utf8.encode →
        maxDist = Int64.maxValue → ∀ c ∈ cs, maxDist.toInt < distance q c := by
  constructor
  · rintro ⟨-, hreturns, -, hclosest⟩
    refine ⟨levenshtein_ok_iff.mp hreturns, fun q cs hq hcs => ?_⟩
    have h := hclosest q cs hq hcs
    subst hq hcs
    exact (closest_encode_iff cs).mp h
  · rintro ⟨hcomplete, hlimit⟩
    refine ⟨fun cs ds ha hb => ?_, levenshtein_ok_iff.mpr hcomplete, fun cs ds es => ?_,
      fun q cs hq hcs => ?_⟩
    · subst ha hb
      exact ⟨_, levenshtein_encode cs ds, isLeast_distance cs ds⟩
    · refine ⟨_, _, _, levenshtein_encode cs ds, ?_, levenshtein_encode ds es,
        levenshtein_encode cs es, distance_eq_zero_iff, distance_triangle cs ds es⟩
      rw [levenshtein_encode, distance_comm]
    · have h := hlimit q cs hq hcs
      subst hq hcs
      exact (closest_encode_iff cs).mpr h

/-- Half a character at the end, and the largest limit. -/
theorem levenshtein_half_character :
    levenshtein [0xC3] [] = .error (.sliceOutOfBounds 0 2 1) ∧
      closest [0x61] [[0x61]] Int64.maxValue = .ok (-1) := by
  decide +kernel

end Kryos.Stdlib.Fuzzy
