import Mathlib

/-!
# Base64 in the standard library

The encoder takes three bytes at a time and the decoder four symbols at a time, and both write into
a buffer of a given capacity. The buffers exist; a null pointer is answered with `-1` at once.

The decoder skips line breaks and blanks, and looks for padding only in the last two symbols of each
group of four.

## Main results

* `Base64.decode_encode` — decoding takes an encoded text back to its bytes
* `Base64.encodeLoop_bytesOf_iff` — which texts are the encoding of the bytes they decode to
* `Base64.retrySucceeds_iff` — when the size reported for lack of room is that of the whole text
* `Base64.inverse_iff` — both together
-/

namespace Kryos.Stdlib.Base64

/-! ## The alphabet -/

def ALPHABET : List UInt8 :=
  "ABCDEFGHIJKLMNOPQRSTUVWXYZabcdefghijklmnopqrstuvwxyz0123456789+/".toList.map Char.toUInt8

/-- `ALPHABET[(n & 0x3f) as usize]` -/
def symbol (n : ℕ) : UInt8 := ALPHABET.getD (n &&& 0x3f) 0

/-- The `=` sign. -/
def padding : UInt8 := 61

def decodeValue (c : UInt8) : ℤ :=
  if 65 ≤ c ∧ c ≤ 90 then (c - 65).toNat
  else if 97 ≤ c ∧ c ≤ 122 then (c - 97 + 26).toNat
  else if 48 ≤ c ∧ c ≤ 57 then (c - 48 + 52).toNat
  else if c = 43 then 62
  else if c = 47 then 63
  else if c = padding then -1
  else -2

variable {k : ℕ}

set_option maxRecDepth 10000 in
theorem decodeValue_symbol (h : k < 64) : decodeValue (symbol k) = k := by
  have hall : ∀ k < 64, decodeValue (symbol k) = k := by decide
  exact hall k h

set_option maxRecDepth 10000 in
theorem symbol_decodeValue (c : UInt8) : decodeValue c = -2 ∨ (c = padding ∧ decodeValue c = -1) ∨
    (0 ≤ decodeValue c ∧ decodeValue c < 64 ∧ symbol (decodeValue c).toNat = c) := by
  have hall : ∀ n < 256, decodeValue (UInt8.ofNat n) = -2 ∨
      (UInt8.ofNat n = padding ∧ decodeValue (UInt8.ofNat n) = -1) ∨
        (0 ≤ decodeValue (UInt8.ofNat n) ∧ decodeValue (UInt8.ofNat n) < 64 ∧
          symbol (decodeValue (UInt8.ofNat n)).toNat = UInt8.ofNat n) := by
    decide
  have hc := hall c.toNat c.toNat_lt
  rwa [UInt8.ofNat_toNat] at hc

theorem symbol_ne_padding (h : k < 64) : symbol k ≠ padding := by
  intro heq
  have hvalue := decodeValue_symbol h
  rw [heq, show decodeValue padding = -1 from rfl] at hvalue
  omega

theorem symbol_mod (k : ℕ) : symbol (k % 64) = symbol k := by
  rw [symbol, symbol, show (0x3f : ℕ) = 2 ^ 6 - 1 from rfl, Nat.and_two_pow_sub_one_eq_mod,
    Nat.and_two_pow_sub_one_eq_mod, Nat.mod_mod]

theorem symbol_injective {j : ℕ} (hj : j < 64) (hk : k < 64) (h : symbol j = symbol k) : j = k := by
  have hvalue := congrArg decodeValue h
  rw [decodeValue_symbol hj, decodeValue_symbol hk] at hvalue
  exact_mod_cast hvalue

/-! ## The encoder and the decoder -/

/-- What a call returns and stores. -/
inductive Reply where
  /-- the bytes written, whose number is returned and stored in `*needed` -/
  | done (bytes : List UInt8)
  /-- `-1`, and what is stored in `*needed` -/
  | noRoom (needed : ℕ)
  /-- `-2` -/
  | invalid
  deriving DecidableEq, Repr

def encodeLoop : List UInt8 → List UInt8
  | b0 :: b1 :: b2 :: src =>
    let n := b0.toNat <<< 16 ||| b1.toNat <<< 8 ||| b2.toNat
    symbol (n >>> 18) :: symbol (n >>> 12) :: symbol (n >>> 6) :: symbol n :: encodeLoop src
  | [b0, b1] =>
    let n := b0.toNat <<< 16 ||| b1.toNat <<< 8
    [symbol (n >>> 18), symbol (n >>> 12), symbol (n >>> 6), padding]
  | [b0] =>
    let n := b0.toNat <<< 16
    [symbol (n >>> 18), symbol (n >>> 12), padding, padding]
  | [] => []

def kryosBase64Encode (input : List UInt8) (outCap : ℕ) : Reply :=
  let req := (input.length + 2) / 3 * 4
  if req > outCap then .noRoom req else .done (encodeLoop input)

/-- `\n`, `\r` or a blank. -/
def isSkipped (c : UInt8) : Bool := c == 10 || c == 13 || c == 32

/-- `pad` of a group: only its last two values count. -/
def padOf (v2 v3 : ℤ) : ℕ := (if v2 = -1 then 1 else 0) + if v3 = -1 then 1 else 0

/-- The bytes of a group of four values. -/
def decodeGroup (v0 v1 v2 v3 : ℤ) : List UInt8 :=
  let n := v0.toNat <<< 18 ||| v1.toNat <<< 12 ||| v2.toNat <<< 6 ||| v3.toNat
  UInt8.ofNat ((n >>> 16) &&& 0xff) ::
    ((if padOf v2 v3 < 2 then [UInt8.ofNat ((n >>> 8) &&& 0xff)] else []) ++
      if padOf v2 v3 < 1 then [UInt8.ofNat (n &&& 0xff)] else [])

/-- The loop over the text: `buf` holds the values of an unfinished group, `dst` what is written. -/
def decodeLoop (outCap : ℕ) : List UInt8 → List ℤ → List UInt8 → Reply
  | [], buf, dst => if buf = [] then .done dst else .invalid
  | c :: src, buf, dst =>
    if isSkipped c then decodeLoop outCap src buf dst
    else if decodeValue c = -2 then .invalid
    else
      match buf with
      | [v0, v1, v2] =>
        let v3 := decodeValue c
        let produce := 3 - padOf v2 v3
        if dst.length + produce > outCap then .noRoom (dst.length + produce)
        else decodeLoop outCap src [] (dst ++ decodeGroup v0 v1 v2 v3)
      | buf => decodeLoop outCap src (buf ++ [decodeValue c]) dst

def kryosBase64Decode (input : List UInt8) (outCap : ℕ) : Reply := decodeLoop outCap input [] []

theorem not_isSkipped_symbol (k : ℕ) : isSkipped (symbol k) = false := by
  have hvalue := decodeValue_symbol (Nat.mod_lt k (show 0 < 64 by decide))
  rw [symbol_mod] at hvalue
  by_contra h
  rw [Bool.not_eq_false, isSkipped, Bool.or_eq_true, Bool.or_eq_true, beq_iff_eq, beq_iff_eq,
    beq_iff_eq] at h
  rcases h with (h | h) | h <;> rw [h] at hvalue <;> exact absurd hvalue nofun

/-! ## Bits -/

theorem packBytes (a b c : UInt8) :
    a.toNat <<< 16 ||| b.toNat <<< 8 ||| c.toNat = a.toNat * 65536 + b.toNat * 256 + c.toNat := by
  have hb := b.toNat_lt
  have hc := c.toNat_lt
  rw [show a.toNat <<< 16 = (a.toNat <<< 8) <<< 8 by rw [← Nat.shiftLeft_add],
    ← Nat.shiftLeft_or_distrib, ← Nat.shiftLeft_add_eq_or_of_lt hb,
    ← Nat.shiftLeft_add_eq_or_of_lt hc]
  simp only [Nat.shiftLeft_eq]
  omega

theorem packSymbols {i j l : ℕ} (hj : j < 64) (hk : k < 64) (hl : l < 64) :
    i <<< 18 ||| j <<< 12 ||| k <<< 6 ||| l = i * 262144 + j * 4096 + k * 64 + l := by
  rw [show i <<< 18 = ((i <<< 6) <<< 6) <<< 6 by simp only [← Nat.shiftLeft_add],
    show j <<< 12 = (j <<< 6) <<< 6 by rw [← Nat.shiftLeft_add], ← Nat.shiftLeft_or_distrib,
    ← Nat.shiftLeft_or_distrib, ← Nat.shiftLeft_or_distrib,
    ← Nat.shiftLeft_add_eq_or_of_lt (show j < 2 ^ 6 from hj),
    ← Nat.shiftLeft_add_eq_or_of_lt (show k < 2 ^ 6 from hk),
    ← Nat.shiftLeft_add_eq_or_of_lt (show l < 2 ^ 6 from hl)]
  simp only [Nat.shiftLeft_eq]
  omega

theorem shift_mask (n i : ℕ) : (n >>> i) &&& 0xff = n / 2 ^ i % 256 := by
  rw [Nat.shiftRight_eq_div_pow, show (0xff : ℕ) = 2 ^ 8 - 1 from rfl,
    Nat.and_two_pow_sub_one_eq_mod]

/-- The bytes of a group, by the six bits of each value. -/
theorem decodeGroup_eq {v0 v1 v2 v3 : ℤ} (h1 : v1.toNat < 64) (h2 : v2.toNat < 64)
    (h3 : v3.toNat < 64) (h0 : v0.toNat < 64) :
    decodeGroup v0 v1 v2 v3 = UInt8.ofNat (v0.toNat * 4 + v1.toNat / 16) ::
      ((if padOf v2 v3 < 2 then [UInt8.ofNat (v1.toNat % 16 * 16 + v2.toNat / 4)] else []) ++
        if padOf v2 v3 < 1 then [UInt8.ofNat (v2.toNat % 4 * 64 + v3.toNat)] else []) := by
  have hlow := shift_mask (v0.toNat * 262144 + v1.toNat * 4096 + v2.toNat * 64 + v3.toNat) 0
  rw [Nat.shiftRight_zero] at hlow
  simp only [decodeGroup, packSymbols h1 h2 h3, shift_mask, hlow]
  generalize v0.toNat = i at *
  generalize v1.toNat = j at *
  generalize v2.toNat = k at *
  generalize v3.toNat = l at *
  rw [show (i * 262144 + j * 4096 + k * 64 + l) / 2 ^ 16 % 256 = i * 4 + j / 16 by omega,
    show (i * 262144 + j * 4096 + k * 64 + l) / 2 ^ 8 % 256 = j % 16 * 16 + k / 4 by omega,
    show (i * 262144 + j * 4096 + k * 64 + l) / 2 ^ 0 % 256 = k % 4 * 64 + l by omega]

theorem length_decodeGroup (v0 v1 v2 v3 : ℤ) :
    (decodeGroup v0 v1 v2 v3).length = 3 - padOf v2 v3 := by
  rw [decodeGroup, padOf]
  split_ifs <;> simp_all

theorem symbol_shift (n i : ℕ) : symbol (n >>> i) = symbol (n / 2 ^ i % 64) := by
  rw [Nat.shiftRight_eq_div_pow, symbol_mod]

/-- The four symbols of three bytes. -/
theorem encodeLoop_three (a b c : UInt8) (src : List UInt8) :
    encodeLoop (a :: b :: c :: src) = symbol (a.toNat / 4) ::
      symbol (a.toNat % 4 * 16 + b.toNat / 16) :: symbol (b.toNat % 16 * 4 + c.toNat / 64) ::
        symbol (c.toNat % 64) :: encodeLoop src := by
  have ha := a.toNat_lt
  have hb := b.toNat_lt
  have hc := c.toNat_lt
  have hlow := symbol_shift (a.toNat * 65536 + b.toNat * 256 + c.toNat) 0
  rw [Nat.shiftRight_zero] at hlow
  simp only [encodeLoop, packBytes, symbol_shift, hlow]
  generalize a.toNat = i at *
  generalize b.toNat = j at *
  generalize c.toNat = k at *
  rw [show (i * 65536 + j * 256 + k) / 2 ^ 18 % 64 = i / 4 by omega,
    show (i * 65536 + j * 256 + k) / 2 ^ 12 % 64 = i % 4 * 16 + j / 16 by omega,
    show (i * 65536 + j * 256 + k) / 2 ^ 6 % 64 = j % 16 * 4 + k / 64 by omega,
    show (i * 65536 + j * 256 + k) / 2 ^ 0 % 64 = k % 64 by omega]

/-- A last group of two bytes is encoded like the two followed by a zero. -/
theorem encodeLoop_two (a b : UInt8) :
    encodeLoop [a, b] = [symbol (a.toNat / 4), symbol (a.toNat % 4 * 16 + b.toNat / 16),
      symbol (b.toNat % 16 * 4), padding] := by
  have h := encodeLoop_three a b 0 []
  simp only [encodeLoop, show (0 : UInt8).toNat = 0 from rfl, Nat.or_zero, List.cons.injEq,
    Nat.zero_div, Nat.add_zero] at h ⊢
  exact ⟨h.1, h.2.1, h.2.2.1, trivial⟩

theorem encodeLoop_one (a : UInt8) :
    encodeLoop [a] = [symbol (a.toNat / 4), symbol (a.toNat % 4 * 16), padding, padding] := by
  have h := encodeLoop_two a 0
  simp only [encodeLoop, show (0 : UInt8).toNat = 0 from rfl, Nat.zero_shiftLeft, Nat.or_zero,
    List.cons.injEq, Nat.zero_div, Nat.add_zero] at h ⊢
  exact ⟨h.1, h.2.1, trivial⟩

/-! ## The text by groups of four -/

/-- The text without what the decoder skips. -/
def strip (text : List UInt8) : List UInt8 := text.filter fun c => !isSkipped c

/-- The bytes of the text, group by group. -/
def bytesOf : List UInt8 → List UInt8
  | a :: b :: c :: d :: src =>
    decodeGroup (decodeValue a) (decodeValue b) (decodeValue c) (decodeValue d) ++ bytesOf src
  | _ => []

/-- Symbols and padding in complete groups. -/
def WellGrouped : List UInt8 → Prop
  | a :: b :: c :: d :: src => (∀ e ∈ [a, b, c, d], decodeValue e ≠ -2) ∧ WellGrouped src
  | src => src = []

/-- The sizes of the groups in front of the first byte that is neither a symbol nor padding. -/
def groupSizes : List UInt8 → List ℕ
  | a :: b :: c :: d :: src =>
    if ∀ e ∈ [a, b, c, d], decodeValue e ≠ -2 then
      (3 - padOf (decodeValue c) (decodeValue d)) :: groupSizes src
    else []
  | _ => []

/-- The decoder on a text without blanks, group by group. -/
def decodeGroups (outCap : ℕ) : List UInt8 → List UInt8 → Reply
  | a :: b :: c :: d :: src, dst =>
    if ∀ e ∈ [a, b, c, d], decodeValue e ≠ -2 then
      let produce := 3 - padOf (decodeValue c) (decodeValue d)
      if dst.length + produce > outCap then .noRoom (dst.length + produce)
      else decodeGroups outCap src
        (dst ++ decodeGroup (decodeValue a) (decodeValue b) (decodeValue c) (decodeValue d))
    else .invalid
  | src, dst => if src = [] then .done dst else .invalid

theorem decodeLoop_strip (outCap : ℕ) (text : List UInt8) (buf : List ℤ) (dst : List UInt8) :
    decodeLoop outCap (strip text) buf dst = decodeLoop outCap text buf dst := by
  induction text generalizing buf dst with
  | nil => rfl
  | cons c src ih =>
    by_cases hc : isSkipped c
    · rw [strip, List.filter_cons_of_neg (by simp [hc]), ← strip, ih]
      simp only [decodeLoop, hc, if_true]
    · rw [strip, List.filter_cons_of_pos (by simp [hc]), ← strip]
      simp only [decodeLoop, hc, ih]

variable {a b c d : UInt8} {src dst : List UInt8}

theorem decodeLoop_four (outCap : ℕ) (h : ∀ e ∈ [a, b, c, d], isSkipped e = false) :
    decodeLoop outCap (a :: b :: c :: d :: src) [] dst =
      if ∀ e ∈ [a, b, c, d], decodeValue e ≠ -2 then
        let produce := 3 - padOf (decodeValue c) (decodeValue d)
        if dst.length + produce > outCap then .noRoom (dst.length + produce)
        else decodeLoop outCap src []
          (dst ++ decodeGroup (decodeValue a) (decodeValue b) (decodeValue c) (decodeValue d))
      else .invalid := by
  simp only [List.forall_mem_cons, List.not_mem_nil, false_implies, implies_true, and_true] at h ⊢
  obtain ⟨ha, hb, hc, hd⟩ := h
  simp only [decodeLoop, ha, hb, hc, hd, List.nil_append, List.cons_append, Bool.false_eq_true,
    if_false]
  split_ifs <;> simp_all

/-- A text that ends within a group is rejected. -/
theorem decodeLoop_short (outCap : ℕ) (h : ∀ e ∈ src, isSkipped e = false) (hne : src ≠ [])
    (hlen : src.length < 4) : decodeLoop outCap src [] dst = .invalid := by
  match src, hne, hlen with
  | [a], _, _ | [a, b], _, _ | [a, b, c], _, _ =>
    simp only [List.forall_mem_cons] at h
    simp [decodeLoop, h]

theorem decodeLoop_eq_decodeGroups (outCap : ℕ) (src dst : List UInt8)
    (h : ∀ c ∈ src, isSkipped c = false) :
    decodeLoop outCap src [] dst = decodeGroups outCap src dst := by
  match src with
  | [] => rfl
  | [a] | [a, b] | [a, b, c] => exact decodeLoop_short outCap h (List.cons_ne_nil _ _) (by simp)
  | a :: b :: c :: d :: src =>
    have hhead : ∀ e ∈ [a, b, c, d], isSkipped e = false := fun e he =>
      h e (List.mem_append_left src he)
    rw [decodeLoop_four outCap hhead, decodeGroups,
      decodeLoop_eq_decodeGroups outCap src _
        fun e he => h e (List.mem_append_right [a, b, c, d] he)]

theorem kryosBase64Decode_eq (text : List UInt8) (outCap : ℕ) :
    kryosBase64Decode text outCap = decodeGroups outCap (strip text) [] := by
  rw [kryosBase64Decode, ← decodeLoop_strip, decodeLoop_eq_decodeGroups]
  intro c hc
  simpa using List.of_mem_filter hc

/-! ## What the decoder answers -/

theorem length_bytesOf (h : WellGrouped src) : (bytesOf src).length = (groupSizes src).sum := by
  fun_induction bytesOf src with
  | case1 a b c d src ih =>
    obtain ⟨hv, hrest⟩ := h
    rw [groupSizes, if_pos hv, List.sum_cons, List.length_append, length_decodeGroup, ih hrest]
  | case2 src hshort =>
    rw [groupSizes]
    · rfl
    · exact hshort

theorem decodeGroups_eq_done_iff {outCap : ℕ} {out : List UInt8} (hdst : dst.length ≤ outCap) :
    decodeGroups outCap src dst = .done out ↔
      WellGrouped src ∧ out = dst ++ bytesOf src ∧ dst.length + (bytesOf src).length ≤ outCap := by
  fun_induction decodeGroups outCap src dst with
  | case1 a b c d src dst hv produce hroom =>
    simp only [reduceCtorEq, false_iff, bytesOf, List.length_append, length_decodeGroup]
    omega
  | case2 a b c d src dst hv produce hroom ih =>
    have hlen := length_decodeGroup (decodeValue a) (decodeValue b) (decodeValue c) (decodeValue d)
    rw [ih (by rw [List.length_append, hlen]; omega), WellGrouped, bytesOf]
    simp only [List.append_assoc, List.length_append, Nat.add_assoc, and_iff_right hv]
  | case3 a b c d src dst hv => exact iff_of_false (nomatch ·) fun h => hv h.1.1
  | case4 dst => simp [WellGrouped, bytesOf, hdst, eq_comm]
  | case5 src dst hshort hne =>
    refine iff_of_false (nomatch ·) fun h => hne ?_
    have hgrouped := h.1
    rwa [WellGrouped] at hgrouped
    exact hshort

/-- The size reported for lack of room is that of the whole text. -/
def ReportsWhole (reply : Reply) (dst src : List UInt8) : Prop :=
  ∀ n, reply = .noRoom n → WellGrouped src ∧ n = dst.length + (bytesOf src).length

theorem padOf_le (v2 v3 : ℤ) : padOf v2 v3 ≤ 2 := by
  rw [padOf]
  split_ifs <;> decide

theorem groupSizes_pos (src : List UInt8) : ∀ k ∈ groupSizes src, 0 < k := by
  fun_induction groupSizes src with
  | case1 a b c d src hv ih =>
    have hpad := padOf_le (decodeValue c) (decodeValue d)
    rw [List.forall_mem_cons]
    exact ⟨by omega, ih⟩
  | case2 | case3 => simp

theorem reports_whole_iff {outCap : ℕ} {src dst : List UInt8} (hdst : dst.length ≤ outCap) :
    ReportsWhole (decodeGroups outCap src dst) dst src ↔
      dst.length + (groupSizes src).sum ≤ outCap ∨
        WellGrouped src ∧ dst.length + (groupSizes src).dropLast.sum ≤ outCap := by
  fun_induction decodeGroups outCap src dst with
  | case1 a b c d src dst hv produce hroom =>
    have hreport : ReportsWhole (.noRoom (dst.length + produce)) dst (a :: b :: c :: d :: src) ↔
        WellGrouped src ∧ (bytesOf src).length = 0 := by
      simp only [ReportsWhole, Reply.noRoom.injEq, forall_eq', WellGrouped, and_iff_right hv,
        bytesOf, List.length_append, length_decodeGroup]
      refine and_congr_right fun _ => ?_
      omega
    rw [hreport, groupSizes, if_pos hv, WellGrouped, and_iff_right hv]
    cases hsizes : groupSizes src with
    | nil =>
      have hnone : WellGrouped src → (bytesOf src).length = 0 := fun h => by
        rw [length_bytesOf h, hsizes, List.sum_nil]
      simp only [List.dropLast_singleton, List.sum_nil, List.sum_cons]
      constructor
      · exact fun h => Or.inr ⟨h.1, hdst⟩
      · rintro (hfits | h)
        · omega
        · exact ⟨h.1, hnone h.1⟩
    | cons k sizes =>
      have hpos := groupSizes_pos src k (by rw [hsizes]; exact List.mem_cons_self)
      refine iff_of_false (fun h => ?_) ?_
      · have hlen := length_bytesOf h.1
        rw [hsizes, List.sum_cons] at hlen
        omega
      · simp only [List.dropLast_cons_cons, List.sum_cons]
        omega
  | case2 a b c d src dst hv produce hroom ih =>
    have hlen := length_decodeGroup (decodeValue a) (decodeValue b) (decodeValue c) (decodeValue d)
    have hreport (reply : Reply) : ReportsWhole reply dst (a :: b :: c :: d :: src) ↔
        ReportsWhole reply (dst ++ decodeGroup (decodeValue a) (decodeValue b) (decodeValue c)
          (decodeValue d)) src := by
      simp only [ReportsWhole, WellGrouped, and_iff_right hv, bytesOf, List.length_append,
        Nat.add_assoc]
    rw [hreport, ih (by rw [List.length_append, hlen]; omega), groupSizes, if_pos hv, WellGrouped,
      and_iff_right hv, List.length_append, hlen]
    cases groupSizes src with
    | nil => 
      simp only [List.dropLast_singleton, List.dropLast_nil, List.sum_nil, List.sum_cons]
      omega
    | cons k sizes => 
      simp only [List.dropLast_cons_cons, List.sum_cons, Nat.add_assoc]
  | case3 a b c d src dst hv => 
    rw [groupSizes, if_neg hv]
    exact iff_of_true (fun n h => nomatch h) (Or.inl hdst)
  | case4 dst => exact iff_of_true (fun n h => nomatch h) (Or.inl hdst)
  | case5 src dst hshort hne =>
    rw [groupSizes]
    · exact iff_of_true (fun n h => nomatch h) (Or.inl hdst)
    · exact hshort

/-! ## Decoding what was encoded -/

/-- The six bits of a symbol; padding counts as zero. -/
def bits (c : UInt8) : ℕ := (decodeValue c).toNat

theorem bits_symbol (h : k < 64) : bits (symbol k) = k := by
  rw [bits, decodeValue_symbol h, Int.toNat_natCast]

theorem bits_lt (c : UInt8) : bits c < 64 := by
  rcases symbol_decodeValue c with h | ⟨-, h⟩ | ⟨hlo, hhi, -⟩ <;> rw [bits] <;> omega

/-- A byte is a symbol. -/
def IsSymbol (c : UInt8) : Prop := 0 ≤ decodeValue c

theorem isSymbol_symbol (h : k < 64) : IsSymbol (symbol k) := by
  rw [IsSymbol, decodeValue_symbol h]
  exact Int.natCast_nonneg k

theorem not_isSymbol_padding : ¬ IsSymbol padding := by
  rw [IsSymbol]
  decide

theorem symbol_bits_eq_iff (c : UInt8) : symbol (bits c) = c ↔ IsSymbol c := by
  refine ⟨fun h => h ▸ isSymbol_symbol (bits_lt c), fun h => ?_⟩
  rcases symbol_decodeValue c with hc | ⟨-, hc⟩ | ⟨-, -, hc⟩
  · rw [IsSymbol, hc] at h
    exact absurd h (by decide)
  · rw [IsSymbol, hc] at h
    exact absurd h (by decide)
  · exact hc

theorem decodeValue_ne_neg_one (h : IsSymbol c) : decodeValue c ≠ -1 := by
  rw [IsSymbol] at h
  omega

theorem group_symbols (a b : UInt8) (hc : IsSymbol c) (hd : IsSymbol d) :
    decodeGroup (decodeValue a) (decodeValue b) (decodeValue c) (decodeValue d) =
      [UInt8.ofNat (bits a * 4 + bits b / 16), UInt8.ofNat (bits b % 16 * 16 + bits c / 4),
        UInt8.ofNat (bits c % 4 * 64 + bits d)] := by
  rw [decodeGroup_eq (bits_lt b) (bits_lt c) (bits_lt d) (bits_lt a), padOf,
    if_neg (decodeValue_ne_neg_one hc), if_neg (decodeValue_ne_neg_one hd)]
  rfl

theorem group_one_padding (a b : UInt8) (hpad : padOf (decodeValue c) (decodeValue d) = 1) :
    decodeGroup (decodeValue a) (decodeValue b) (decodeValue c) (decodeValue d) =
      [UInt8.ofNat (bits a * 4 + bits b / 16), UInt8.ofNat (bits b % 16 * 16 + bits c / 4)] := by
  rw [decodeGroup_eq (bits_lt b) (bits_lt c) (bits_lt d) (bits_lt a), hpad]
  rfl

theorem group_two_paddings (a b : UInt8) :
    decodeGroup (decodeValue a) (decodeValue b) (decodeValue padding) (decodeValue padding) =
      [UInt8.ofNat (bits a * 4 + bits b / 16)] := by
  rw [decodeGroup_eq (bits_lt b) (bits_lt padding) (bits_lt padding) (bits_lt a)]
  rfl

theorem valid_symbol (h : k < 64) : decodeValue (symbol k) ≠ -2 := by
  have hsymbol := isSymbol_symbol h
  rw [IsSymbol] at hsymbol
  omega

theorem valid_padding : decodeValue padding ≠ -2 := by decide

theorem forall_group {p : UInt8 → Prop} : (∀ e ∈ [a, b, c, d], p e) ↔ p a ∧ p b ∧ p c ∧ p d := by
  simp only [List.forall_mem_cons, List.not_mem_nil, false_implies, implies_true, and_true]

theorem ofNat_eq {n : ℕ} (h : n = a.toNat) : UInt8.ofNat n = a := by
  rw [h, UInt8.ofNat_toNat]

/-- The six bits of each symbol of three bytes. -/
theorem sextets_lt (a b c : UInt8) : a.toNat / 4 < 64 ∧ a.toNat % 4 * 16 + b.toNat / 16 < 64 ∧
    b.toNat % 16 * 4 + c.toNat / 64 < 64 ∧ c.toNat % 64 < 64 := by
  have ha := a.toNat_lt
  have hb := b.toNat_lt
  have hc := c.toNat_lt
  omega

theorem wellGrouped_encodeLoop (input : List UInt8) : WellGrouped (encodeLoop input) := by
  match input with
  | [] => rfl
  | [a] =>
    obtain ⟨h0, h1, -, -⟩ := sextets_lt a 0 0
    rw [encodeLoop_one]
    exact ⟨forall_group.mpr ⟨valid_symbol h0, valid_symbol h1, valid_padding, valid_padding⟩, rfl⟩
  | [a, b] =>
    obtain ⟨h0, h1, h2, -⟩ := sextets_lt a b 0
    rw [encodeLoop_two]
    exact ⟨forall_group.mpr ⟨valid_symbol h0, valid_symbol h1, valid_symbol h2, valid_padding⟩, rfl⟩
  | a :: b :: c :: input =>
    obtain ⟨h0, h1, h2, h3⟩ := sextets_lt a b c
    rw [encodeLoop_three]
    exact ⟨forall_group.mpr ⟨valid_symbol h0, valid_symbol h1, valid_symbol h2, valid_symbol h3⟩,
      wellGrouped_encodeLoop input⟩

/-- What the encoder writes is never skipped. -/
theorem strip_encodeLoop (input : List UInt8) : strip (encodeLoop input) = encodeLoop input := by
  refine List.filter_eq_self.mpr fun e he => ?_
  suffices h : isSkipped e = false by rw [h]; rfl
  fun_induction encodeLoop input with
  | case1 a b c input n ih =>
    simp only [List.mem_cons] at he
    rcases he with rfl | rfl | rfl | rfl | he
    · exact not_isSkipped_symbol _
    · exact not_isSkipped_symbol _
    · exact not_isSkipped_symbol _
    · exact not_isSkipped_symbol _
    · exact ih he
  | case2 a b n =>
    simp only [List.mem_cons, List.not_mem_nil, or_false] at he
    rcases he with rfl | rfl | rfl | rfl
    · exact not_isSkipped_symbol _
    · exact not_isSkipped_symbol _
    · exact not_isSkipped_symbol _
    · rfl
  | case3 a n =>
    simp only [List.mem_cons, List.not_mem_nil, or_false] at he
    rcases he with rfl | rfl | rfl | rfl
    · exact not_isSkipped_symbol _
    · exact not_isSkipped_symbol _
    · rfl
    · rfl
  | case4 => exact absurd he List.not_mem_nil

theorem padOf_symbol_padding (h : IsSymbol c) :
    padOf (decodeValue c) (decodeValue padding) = 1 := by
  rw [padOf, if_neg (decodeValue_ne_neg_one h), if_pos (by decide)]

theorem bytesOf_encodeLoop (input : List UInt8) : bytesOf (encodeLoop input) = input := by
  match input with
  | [] => rfl
  | [a] =>
    have ha := a.toNat_lt
    obtain ⟨h0, h1, -, -⟩ := sextets_lt a 0 0
    rw [show (0 : UInt8).toNat = 0 from rfl, Nat.zero_div, Nat.add_zero] at h1
    rw [encodeLoop_one, bytesOf, group_two_paddings, bits_symbol h0, bits_symbol h1,
      ofNat_eq (a := a) (by omega)]
    rfl
  | [a, b] =>
    have ha := a.toNat_lt
    have hb := b.toNat_lt
    obtain ⟨h0, h1, h2, -⟩ := sextets_lt a b 0
    rw [show (0 : UInt8).toNat = 0 from rfl, Nat.zero_div, Nat.add_zero] at h2
    rw [encodeLoop_two, bytesOf, group_one_padding _ _ (padOf_symbol_padding (isSymbol_symbol h2)),
      bits_symbol h0, bits_symbol h1, bits_symbol h2, ofNat_eq (a := a) (by omega),
      ofNat_eq (a := b) (by omega)]
    rfl
  | a :: b :: c :: input =>
    have ha := a.toNat_lt
    have hb := b.toNat_lt
    have hc := c.toNat_lt
    obtain ⟨h0, h1, h2, h3⟩ := sextets_lt a b c
    rw [encodeLoop_three, bytesOf, group_symbols _ _ (isSymbol_symbol h2) (isSymbol_symbol h3),
      bits_symbol h0, bits_symbol h1, bits_symbol h2, bits_symbol h3, bytesOf_encodeLoop input,
      ofNat_eq (a := a) (by omega), ofNat_eq (a := b) (by omega), ofNat_eq (a := c) (by omega)]
    rfl

/-- Decoding takes an encoded text back to its bytes. -/
theorem decode_encode (input : List UInt8) {outCap : ℕ} (hroom : input.length ≤ outCap) :
    kryosBase64Decode (encodeLoop input) outCap = .done input := by
  rw [kryosBase64Decode_eq, strip_encodeLoop, decodeGroups_eq_done_iff (Nat.zero_le _),
    bytesOf_encodeLoop]
  exact ⟨wellGrouped_encodeLoop input, rfl, by simpa using hroom⟩

/-! ## Which texts are encodings -/

/-- The last group of an encoding: unused bits of the symbol before the padding are zero. -/
def LastGroup (a b c d : UInt8) : Prop :=
  IsSymbol a ∧ IsSymbol b ∧
    ((IsSymbol c ∧ IsSymbol d) ∨ (IsSymbol c ∧ bits c % 4 = 0 ∧ d = padding) ∨
      (bits b % 16 = 0 ∧ c = padding ∧ d = padding))

/-- Groups of four symbols, with padding only in the last. -/
def Canonical : List UInt8 → Prop
  | [a, b, c, d] => LastGroup a b c d
  | a :: b :: c :: d :: src => (∀ e ∈ [a, b, c, d], IsSymbol e) ∧ Canonical src
  | src => src = []

theorem valid_cases (h : decodeValue c ≠ -2) : IsSymbol c ∨ c = padding := by
  rcases symbol_decodeValue c with hc | ⟨hc, -⟩ | ⟨hc, -⟩
  · exact absurd hc h
  · exact Or.inr hc
  · exact Or.inl hc

theorem toNat_byte {n : ℕ} (h : n < 256) : (UInt8.ofNat n).toNat = n := by
  rw [UInt8.toNat_ofNat', Nat.mod_eq_of_lt h]

/-- The first four symbols of three bytes or more are no padding. -/
theorem encodeLoop_symbols {input : List UInt8} (h : encodeLoop input = a :: b :: c :: d :: src)
    (hlen : 3 ≤ input.length) : c ≠ padding ∧ d ≠ padding := by
  match input, hlen with
  | x :: y :: z :: input, _ =>
    obtain ⟨-, -, h2, h3⟩ := sextets_lt x y z
    rw [encodeLoop_three] at h
    simp only [List.cons.injEq] at h
    obtain ⟨-, -, rfl, rfl, -⟩ := h
    exact ⟨symbol_ne_padding h2, symbol_ne_padding h3⟩

theorem length_encodeLoop (input : List UInt8) :
    (encodeLoop input).length = (input.length + 2) / 3 * 4 := by
  match input with
  | [] => rfl
  | [a] => rw [encodeLoop_one]; simp
  | [a, b] => rw [encodeLoop_two]; simp
  | a :: b :: c :: input =>
    rw [encodeLoop_three]
    simp only [List.length_cons, length_encodeLoop input]
    omega

theorem encodeLoop_group_symbols (a b : UInt8) (hc : IsSymbol c) (hd : IsSymbol d)
    (rest : List UInt8) :
    encodeLoop (decodeGroup (decodeValue a) (decodeValue b) (decodeValue c) (decodeValue d) ++
      rest) = symbol (bits a) :: symbol (bits b) :: c :: d :: encodeLoop rest := by
  have ha := bits_lt a
  have hb := bits_lt b
  have hc' := bits_lt c
  have hd' := bits_lt d
  rw [group_symbols a b hc hd, List.cons_append, List.cons_append, List.cons_append,
    List.nil_append, encodeLoop_three, toNat_byte (by omega), toNat_byte (by omega), toNat_byte (by omega),
    show (bits a * 4 + bits b / 16) / 4 = bits a by omega,
    show (bits a * 4 + bits b / 16) % 4 * 16 + (bits b % 16 * 16 + bits c / 4) / 16 = bits b by
      omega,
    show (bits b % 16 * 16 + bits c / 4) % 16 * 4 + (bits c % 4 * 64 + bits d) / 64 = bits c by
      omega,
    show (bits c % 4 * 64 + bits d) % 64 = bits d by omega,
    (symbol_bits_eq_iff c).mpr hc, (symbol_bits_eq_iff d).mpr hd]

theorem encodeLoop_group_one_padding (a b : UInt8)
    (hpad : padOf (decodeValue c) (decodeValue d) = 1) :
    encodeLoop (decodeGroup (decodeValue a) (decodeValue b) (decodeValue c) (decodeValue d)) =
      [symbol (bits a), symbol (bits b), symbol (bits c / 4 * 4), padding] := by
  have ha := bits_lt a
  have hb := bits_lt b
  have hc := bits_lt c
  rw [group_one_padding a b hpad, encodeLoop_two, toNat_byte (by omega), toNat_byte (by omega),
    show (bits a * 4 + bits b / 16) / 4 = bits a by omega,
    show (bits a * 4 + bits b / 16) % 4 * 16 + (bits b % 16 * 16 + bits c / 4) / 16 = bits b by
      omega,
    show (bits b % 16 * 16 + bits c / 4) % 16 * 4 = bits c / 4 * 4 by omega]

theorem encodeLoop_group_two_paddings (a b : UInt8) :
    encodeLoop (decodeGroup (decodeValue a) (decodeValue b) (decodeValue padding)
      (decodeValue padding)) =
      [symbol (bits a), symbol (bits b / 16 * 16), padding, padding] := by
  have ha := bits_lt a
  have hb := bits_lt b
  rw [group_two_paddings a b, encodeLoop_one, toNat_byte (by omega),
    show (bits a * 4 + bits b / 16) / 4 = bits a by omega,
    show (bits a * 4 + bits b / 16) % 4 * 16 = bits b / 16 * 16 by omega]

theorem symbol_floor_eq_iff : symbol (bits c / k * k) = c ↔ IsSymbol c ∧ bits c % k = 0 := by
  have hlt : bits c / k * k < 64 := (Nat.div_mul_le_self _ _).trans_lt (bits_lt c)
  have hsplit := Nat.div_add_mod' (bits c) k
  constructor
  · intro h
    have hsymbol : IsSymbol c := h ▸ isSymbol_symbol hlt
    have heq := symbol_injective hlt (bits_lt c) (h.trans ((symbol_bits_eq_iff c).mpr hsymbol).symm)
    exact ⟨hsymbol, by omega⟩
  · rintro ⟨hsymbol, hmod⟩
    rw [show bits c / k * k = bits c by omega, (symbol_bits_eq_iff c).mpr hsymbol]

/-- A single group is the encoding of its bytes exactly when it can be the last. -/
theorem encodeLoop_group_iff (h : ∀ e ∈ [a, b, c, d], decodeValue e ≠ -2) :
    encodeLoop (decodeGroup (decodeValue a) (decodeValue b) (decodeValue c) (decodeValue d)) =
      [a, b, c, d] ↔ LastGroup a b c d := by
  obtain ⟨-, -, hc, hd⟩ := forall_group.mp h
  rcases valid_cases hc with hc | rfl <;> rcases valid_cases hd with hd | rfl
  · have heq := encodeLoop_group_symbols a b hc hd []
    rw [List.append_nil] at heq
    rw [heq, LastGroup]
    simp only [encodeLoop, List.cons.injEq, symbol_bits_eq_iff, hc, hd, and_self, true_or, and_true]
  · have hnot := not_isSymbol_padding
    rw [encodeLoop_group_one_padding a b (padOf_symbol_padding hc), LastGroup]
    have hne : c ≠ padding := fun h => hnot (h ▸ hc)
    simp only [List.cons.injEq, symbol_bits_eq_iff, symbol_floor_eq_iff, hc, hnot, hne, and_false,
      true_and, and_true, or_false, false_or]
  · have hnot := not_isSymbol_padding
    have hne : d ≠ padding := fun h => hnot (h ▸ hd)
    have hpad : padOf (decodeValue padding) (decodeValue d) = 1 := by
      rw [padOf, if_pos (by decide), if_neg (decodeValue_ne_neg_one hd)]
    rw [encodeLoop_group_one_padding a b hpad, LastGroup]
    simp only [List.cons.injEq, hne.symm, hne, hnot, and_false, false_and, or_false]
  · have hnot := not_isSymbol_padding
    rw [encodeLoop_group_two_paddings, LastGroup]
    simp only [List.cons.injEq, symbol_bits_eq_iff, symbol_floor_eq_iff, hnot, and_true, false_and,
      false_or]

theorem WellGrouped.four_le_length (h : WellGrouped (c :: src)) : 4 ≤ (c :: src).length := by
  match src, h with
  | [], h | [_], h | [_, _], h => exact absurd h (List.cons_ne_nil _ _)
  | _ :: _ :: _ :: _, _ => simp

/-- A text of complete groups is the encoding of its bytes exactly when it is canonical. -/
theorem encodeLoop_bytesOf_iff {src : List UInt8} (h : WellGrouped src) :
    encodeLoop (bytesOf src) = src ↔ Canonical src := by
  match src, h with
  | [], _ => exact iff_of_true rfl rfl
  | [a, b, c, d], h =>
    rw [Canonical, bytesOf, bytesOf, List.append_nil, encodeLoop_group_iff h.1]
    simp
  | a :: b :: c :: d :: e :: src, h =>
    obtain ⟨hv, hrest⟩ := h
    have ih := encodeLoop_bytesOf_iff hrest
    obtain ⟨-, -, hc, hd⟩ := forall_group.mp hv
    rw [Canonical, forall_group, bytesOf, ← ih]
    by_cases hlast : IsSymbol c ∧ IsSymbol d
    · rw [encodeLoop_group_symbols a b hlast.1 hlast.2]
      simp only [List.cons.injEq, symbol_bits_eq_iff, hlast, and_true, true_and, and_assoc]
    · refine iff_of_false (fun heq => hlast ?_) fun hsymbols => hlast hsymbols.1.2.2
      have hlen := congrArg List.length heq
      have hfour := hrest.four_le_length
      rw [length_encodeLoop] at hlen
      simp only [List.length_cons] at hlen hfour
      obtain ⟨hc', hd'⟩ := encodeLoop_symbols heq (by omega)
      exact ⟨(valid_cases hc).resolve_right hc', (valid_cases hd).resolve_right hd'⟩
    exact fun h => nomatch h

/-! ## The two directions -/

/-- The text is accepted: complete groups whose bytes have room. -/
def Accepted (text : List UInt8) (outCap : ℕ) : Prop :=
  WellGrouped (strip text) ∧ (groupSizes (strip text)).sum ≤ outCap

/-- At most the last group of the text lacks room, and there is no invalid byte. -/
def LacksLastOnly (text : List UInt8) (outCap : ℕ) : Prop :=
  WellGrouped (strip text) ∧ (groupSizes (strip text)).dropLast.sum ≤ outCap

theorem decode_eq_done_iff {text out : List UInt8} {outCap : ℕ} :
    kryosBase64Decode text outCap = .done out ↔
      Accepted text outCap ∧ out = bytesOf (strip text) := by
  rw [kryosBase64Decode_eq, decodeGroups_eq_done_iff (Nat.zero_le _), Accepted, List.nil_append,
    List.length_nil, Nat.zero_add]
  constructor
  · rintro ⟨hgrouped, rfl, hroom⟩
    exact ⟨⟨hgrouped, length_bytesOf hgrouped ▸ hroom⟩, rfl⟩
  · rintro ⟨⟨hgrouped, hroom⟩, rfl⟩
    exact ⟨hgrouped, rfl, (length_bytesOf hgrouped).symm ▸ hroom⟩

/-- Lack of room is reported with the size of what the text decodes to, so that a second call with
that capacity succeeds. -/
def RetrySucceeds (text : List UInt8) (outCap : ℕ) : Prop :=
  ∀ needed, kryosBase64Decode text outCap = .noRoom needed →
    ∃ bytes, kryosBase64Decode text needed = .done bytes ∧ bytes.length = needed

theorem retrySucceeds_iff (text : List UInt8) (outCap : ℕ) : RetrySucceeds text outCap ↔
    (groupSizes (strip text)).sum ≤ outCap ∨ LacksLastOnly text outCap := by
  have hreports := @reports_whole_iff outCap (strip text) [] (Nat.zero_le outCap)
  rw [List.length_nil, Nat.zero_add, Nat.zero_add] at hreports
  rw [LacksLastOnly, ← hreports, ← kryosBase64Decode_eq]
  refine forall₂_congr fun needed _ => ?_
  rw [List.length_nil, Nat.zero_add]
  constructor
  · rintro ⟨bytes, hdone, rfl⟩
    obtain ⟨⟨hgrouped, -⟩, rfl⟩ := decode_eq_done_iff.mp hdone
    exact ⟨hgrouped, rfl⟩
  · rintro ⟨hgrouped, rfl⟩
    exact ⟨_, decode_eq_done_iff.mpr ⟨⟨hgrouped, (length_bytesOf hgrouped).ge⟩, rfl⟩, rfl⟩

/-- An accepted text is the encoding of its bytes, up to what is skipped. -/
def ReencodesTo (text : List UInt8) (outCap : ℕ) : Prop :=
  ∀ bytes, kryosBase64Decode text outCap = .done bytes → encodeLoop bytes = strip text

theorem reencodesTo_iff (text : List UInt8) (outCap : ℕ) :
    ReencodesTo text outCap ↔ (Accepted text outCap → Canonical (strip text)) := by
  constructor
  · intro h haccepted
    rw [← encodeLoop_bytesOf_iff haccepted.1]
    exact h _ (decode_eq_done_iff.mpr ⟨haccepted, rfl⟩)
  · intro h bytes hdone
    obtain ⟨haccepted, rfl⟩ := decode_eq_done_iff.mp hdone
    exact (encodeLoop_bytesOf_iff haccepted.1).mpr (h haccepted)

/-- Decoding what was encoded, with room for it, always gives the bytes back. -/
def RoundTrips (input : List UInt8) : Prop :=
  ∀ text encCap outCap, kryosBase64Encode input encCap = .done text → input.length ≤ outCap →
    kryosBase64Decode text outCap = .done input

theorem roundTrips (input : List UInt8) : RoundTrips input := by
  intro text encCap outCap hdone hroom
  simp only [kryosBase64Encode] at hdone
  split_ifs at hdone
  obtain rfl := Reply.done.inj hdone
  exact decode_encode input hroom

/-- The round trip of bytes always holds. The way back holds for the accepted texts that are
canonical, and the retry for the texts of which at most the last group lacks room. -/
theorem inverse_iff (input text : List UInt8) (outCap : ℕ) :
    RoundTrips input ∧ ReencodesTo text outCap ∧ RetrySucceeds text outCap ↔
      (Accepted text outCap → Canonical (strip text)) ∧
        ((groupSizes (strip text)).sum ≤ outCap ∨ LacksLastOnly text outCap) := by
  rw [and_iff_right (roundTrips input), reencodesTo_iff, retrySucceeds_iff]

/-- `Zh==` decodes to `f`, whose encoding is `Zg==`. -/
theorem zh_counterexample : ¬ ∀ input text outCap,
    RoundTrips input ∧ ReencodesTo text outCap ∧ RetrySucceeds text outCap := fun h =>
  absurd ((h [] [90, 104, 61, 61] 1).2.1 [102] (by decide)) (by decide)

end Kryos.Stdlib.Base64
