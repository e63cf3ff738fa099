import Kryos.Wasm.Slots

/-!
# When the two backends agree on a binary operator

Both sides are read as integers. The native result is the residue modulo `2 ^ w` of some `N`, at the
common width `w` of the operands; the emitted code wraps some `S` to the width `emit_narrow_wrap`
picked. The slot is right exactly when the representative of `S` at the picked type is the
representative of `N` at the result type (`binopAgrees_iff_norm`). From there each operator has its
own condition.

## Main results

* `BinopSafe` — the condition, on the signed readings of the operand slots
* `binopAgrees_iff` — the backends agree exactly under it
-/

namespace Kryos

namespace Wasm

open Native MachineInt

/-! ## Agreement of one operation -/

/-- A comparison, whose result is a boolean. -/
def isComparison : MirBinOp → Bool
  | .eq | .neq | .lt | .gt | .ltEq | .gtEq => true
  | _ => false

/-- An operator on integers; `And` and `Or` are the boolean operators. -/
def isIntOp : MirBinOp → Bool
  | .and | .or => false
  | _ => true

/-- The type lowering gives the result of an integer operation (`infer_expr_type`). -/
def resultTy (op : MirBinOp) (l r : SlotTy) : SlotTy :=
  if isComparison op then .bool else l.wider r

/-- The slot is the extension at type `t` of the native value, or both sides stopped. -/
def ResultAgrees (t : SlotTy) : Except Trap I64 → Except Panic ClInt → Prop
  | .ok s, .ok n => n.width = t.width ∧ s = n.extend t.unsigned 64
  | .error _, .error _ => True
  | _, _ => False

/-- The two backends agree on `op` at operands `a` and `b`, if the WebAssembly backend emits code
for it. -/
def BinopAgrees (op : MirBinOp) (l r : SlotTy) (a : BitVec l.width) (b : BitVec r.width) : Prop :=
  ∀ ops, emitIntBinop l.toMir r.toMir op = some ops → ∀ locals,
    ResultAgrees (resultTy op l r) (leaves ops locals [r.slot b, l.slot a])
      (translateBinOp op ⟨l.width, a⟩ ⟨r.width, b⟩ l.unsigned r.unsigned false)

/-- The type of the result of a unary operator. -/
def unopTy (op : MirUnOp) (t : SlotTy) : SlotTy := if op = .not then .bool else t

def UnopAgrees (op : MirUnOp) (t : SlotTy) (v : BitVec t.width) : Prop :=
  ∀ scratch locals, ResultAgrees (unopTy op t) (leaves (emitIntUnop scratch op) locals [t.slot v])
    (.ok (translateUnop op ⟨t.width, v⟩))

def CastAgrees (src dst : SlotTy) (v : BitVec src.width) : Prop :=
  ∀ ops, emitCast dst.toMir = some ops → ∀ locals,
    ResultAgrees dst (leaves ops locals [src.slot v])
      (.ok (translateCast ⟨src.width, v⟩ src.unsigned dst.width))

/-! ## Both sides as integers

`x` and `y` are the signed readings of the operand slots. -/

/-- The integer the 64-bit instruction computes, up to a multiple of `2 ^ 64`. -/
def slotResult (op : MirBinOp) (x y : ℤ) : ℤ :=
  match op with
  | .add => x + y
  | .sub => x - y
  | .mul => x * y
  | .div => x.tdiv y
  | .mod => x.tmod y
  | .bitAnd => (BitVec.ofInt 64 x &&& BitVec.ofInt 64 y).toInt
  | .bitOr => (BitVec.ofInt 64 x ||| BitVec.ofInt 64 y).toInt
  | .bitXor => (BitVec.ofInt 64 x ^^^ BitVec.ofInt 64 y).toInt
  | .shl => x * 2 ^ (y % 64).toNat
  | .shr => x / 2 ^ (y % 64).toNat
  | _ => 0

/-- The integer the native instruction at width `w` computes, up to a multiple of `2 ^ w`. -/
def nativeResult (op : MirBinOp) (w : ℕ) (isUnsigned : Bool) (x y : ℤ) : ℤ :=
  match op with
  | .div => if isUnsigned then x % 2 ^ w / (y % 2 ^ w) else x.tdiv y
  | .mod => if isUnsigned then x % 2 ^ w % (y % 2 ^ w) else x.tmod y
  | .shl => x * 2 ^ (y % w).toNat
  | .shr => if isUnsigned then x % 2 ^ w / 2 ^ (y % w).toNat else x / 2 ^ (y % w).toNat
  | op => slotResult op x y

/-- The division instructions that trap. -/
def SlotStops (op : MirBinOp) (x y : ℤ) : Prop :=
  (op = .div ∨ op = .mod) ∧ y = 0 ∨ op = .div ∧ x = -2 ^ 63 ∧ y = -1

/-- The divisions the native guard rejects. -/
def NativeStops (op : MirBinOp) (w : ℕ) (isUnsigned : Bool) (x y : ℤ) : Prop :=
  (op = .div ∨ op = .mod) ∧ (y = 0 ∨ isUnsigned = false ∧ x = -2 ^ (w - 1) ∧ y = -1)

instance (op : MirBinOp) (x y : ℤ) : Decidable (SlotStops op x y) :=
  inferInstanceAs (Decidable (_ ∨ _))

instance (op : MirBinOp) (w : ℕ) (u : Bool) (x y : ℤ) : Decidable (NativeStops op w u x y) :=
  inferInstanceAs (Decidable (_ ∧ _))

theorem toNat_mod_64 (b : I64) : b.toNat % 64 = (b.toInt % 64).toNat := by
  rw [BitVec.toInt_eq_toNat_bmod, Int.bmod_def]
  have := b.isLt
  push_cast
  split <;> omega

variable {op : MirBinOp}

theorem rawBinop_ok (hop : isWrapped op = true) (hpow : op ≠ .pow) {a b : I64}
    (h : ¬SlotStops op a.toInt b.toInt) :
    rawBinop op a b = .ok (BitVec.ofInt 64 (slotResult op a.toInt b.toInt)) := by
  cases op <;> first | exact absurd hop (by decide) | exact absurd rfl hpow | skip
  case add => simp only [rawBinop, slotResult, BitVec.ofInt_add, BitVec.ofInt_toInt]
  case sub => simp only [rawBinop, slotResult, ofInt_sub, BitVec.ofInt_toInt]
  case mul => simp only [rawBinop, slotResult, BitVec.ofInt_mul, BitVec.ofInt_toInt]
  case div =>
    have h0 : b ≠ 0 := by rintro rfl; exact h (.inl ⟨.inl rfl, rfl⟩)
    have h1 : ¬(a = BitVec.intMin 64 ∧ b = -1) := by
      rintro ⟨rfl, rfl⟩
      exact h (.inr ⟨rfl, by decide, by decide⟩)
    rw [rawBinop, divS, if_neg h0, if_neg h1, sdiv_eq_ofInt, slotResult]
  case mod =>
    have h0 : b ≠ 0 := by rintro rfl; exact h (.inl ⟨.inr rfl, rfl⟩)
    rw [rawBinop, remS, if_neg h0, srem_eq_ofInt, slotResult]
  case bitAnd | bitOr | bitXor => simp only [rawBinop, slotResult, BitVec.ofInt_toInt]
  case shl => rw [rawBinop, toNat_mod_64, shiftLeft_eq_ofInt, slotResult]
  case shr => rw [rawBinop, toNat_mod_64, sshiftRight_eq_ofInt, slotResult]

theorem rawBinop_stops {a b : I64} (h : SlotStops op a.toInt b.toInt) :
    ∃ e, rawBinop op a b = .error e := by
  obtain ⟨hop, hb⟩ | ⟨rfl, ha, hb⟩ := h
  · obtain rfl : b = 0 := BitVec.eq_of_toInt_eq hb
    obtain rfl | rfl := hop <;> exact ⟨_, rfl⟩
  · obtain rfl : a = BitVec.intMin 64 := BitVec.eq_of_toInt_eq (ha.trans (by decide))
    obtain rfl : b = -1 := BitVec.eq_of_toInt_eq (hb.trans (by decide))
    exact ⟨_, rfl⟩

namespace WordReading

variable {w : ℕ} {u : Bool} {x y : ℤ}

/-- The native guard rejects exactly the divisions of `NativeStops`. -/
theorem divisionGuard_eq (hx : WordReading w u x) (hy : WordReading w u y) :
    divisionGuard (BitVec.ofInt w x) (BitVec.ofInt w y) u =
      if y = 0 then .error (.kryosPanic "integer division by zero")
      else if u = false ∧ x = -2 ^ (w - 1) ∧ y = -1 then
        .error (.kryosPanic "integer division overflow")
      else .ok () := by
  cases u with
  | true =>
    simp only [divisionGuard, if_true, kryosCheckDivZeroI64, hy.setWidth_eq_zero]
    split <;> simp_all <;> rfl
  | false =>
    have h0 : (BitVec.ofInt w y).signExtend 64 = 0 ↔ y = 0 := by
      rw [← BitVec.toInt_inj, hy.toInt_signExtend]
      rfl
    simp only [divisionGuard, Bool.false_eq_true, if_false, kryosCheckSdivI64, h0,
      hx.toInt_signExtend, hy.toInt_signExtend, hx.signedMin_eq, true_and, and_comm]
    rfl

theorem translateBinOpAt_stops (hx : WordReading w u x) (hy : WordReading w u y)
    (h : NativeStops op w u x y) :
    ∃ e, translateBinOpAt op (BitVec.ofInt w x) (BitVec.ofInt w y) u false = .error e := by
  obtain ⟨hop, h⟩ := h
  have hpow : op ≠ .pow := by rintro rfl; simp at hop
  rw [translateBinOpAt, if_neg hpow, if_pos hop, divisionGuard_eq hx hy]
  by_cases h0 : y = 0
  · rw [if_pos h0]
    exact ⟨_, rfl⟩
  · rw [if_neg h0, if_pos (h.resolve_left h0)]
    exact ⟨_, rfl⟩

/-- A bitwise instruction commutes with truncation to a word. -/
theorem ofInt_bitwise (hw : w ≤ 64) (a b : I64) (f : ∀ {n}, BitVec n → BitVec n → BitVec n)
    (hf : f (a.setWidth w) (b.setWidth w) = (f a b).setWidth w) :
    f (BitVec.ofInt w a.toInt) (BitVec.ofInt w b.toInt) = BitVec.ofInt w (f a b).toInt := by
  rw [← SlotTy.setWidth_eq_ofInt a hw, ← SlotTy.setWidth_eq_ofInt b hw, hf,
    SlotTy.setWidth_eq_ofInt _ hw]

theorem translateBinOpAt_ok (hop : isWrapped op = true) (hpow : op ≠ .pow) {a b : I64}
    (hx : WordReading w u a.toInt) (hy : WordReading w u b.toInt)
    (h : ¬NativeStops op w u a.toInt b.toInt) :
    translateBinOpAt op (BitVec.ofInt w a.toInt) (BitVec.ofInt w b.toInt) u false =
      .ok ⟨w, BitVec.ofInt w (nativeResult op w u a.toInt b.toInt)⟩ := by
  have hle : w ≤ 64 := by have := hx.width; omega
  have hguard : op = .div ∨ op = .mod →
      divisionGuard (BitVec.ofInt w a.toInt) (BitVec.ofInt w b.toInt) u = .ok () := by
    intro hd
    rw [divisionGuard_eq hx hy, if_neg fun h0 => h ⟨hd, .inl h0⟩,
      if_neg fun h1 => h ⟨hd, .inr h1⟩]
  rw [translateBinOpAt, if_neg hpow]
  cases op <;> first | exact absurd hop (by decide) | exact absurd rfl hpow | skip
  case add =>
    simp only [translateBinopInt, nativeResult, slotResult, BitVec.ofInt_add]
    rfl
  case sub =>
    simp only [translateBinopInt, nativeResult, slotResult, ofInt_sub]
    rfl
  case mul =>
    simp only [translateBinopInt, nativeResult, slotResult, BitVec.ofInt_mul]
    rfl
  case div =>
    rw [if_pos (.inl rfl), hguard (.inl rfl)]
    simp only [translateBinopInt, nativeResult]
    cases u with
    | true =>
      rw [if_pos rfl, if_pos rfl, udiv_eq_ofInt, toNat_ofInt_eq_emod, toNat_ofInt_eq_emod]
      rfl
    | false =>
      simp only [Bool.false_eq_true, if_false]
      rw [sdiv_eq_ofInt, hx.toInt_ofInt, hy.toInt_ofInt]
      rfl
  case mod =>
    rw [if_pos (.inr rfl), hguard (.inr rfl)]
    simp only [translateBinopInt, nativeResult]
    cases u with
    | true =>
      rw [if_pos rfl, if_pos rfl, umod_eq_ofInt, toNat_ofInt_eq_emod, toNat_ofInt_eq_emod]
      rfl
    | false =>
      simp only [Bool.false_eq_true, if_false]
      rw [srem_eq_ofInt, hx.toInt_ofInt, hy.toInt_ofInt]
      rfl
  case bitAnd =>
    have := ofInt_bitwise hle a b (fun x y => x &&& y) BitVec.setWidth_and.symm
    simp only [translateBinopInt, nativeResult, slotResult, BitVec.ofInt_toInt, this]
    rfl
  case bitOr =>
    have := ofInt_bitwise hle a b (fun x y => x ||| y) BitVec.setWidth_or.symm
    simp only [translateBinopInt, nativeResult, slotResult, BitVec.ofInt_toInt, this]
    rfl
  case bitXor =>
    have := ofInt_bitwise hle a b (fun x y => x ^^^ y) BitVec.setWidth_xor.symm
    simp only [translateBinopInt, nativeResult, slotResult, BitVec.ofInt_toInt, this]
    rfl
  case shl =>
    simp only [translateBinopInt, nativeResult, hy.shiftAmount, shiftLeft_eq_ofInt,
      BitVec.ofInt_mul, BitVec.ofInt_toInt]
    rfl
  case shr =>
    simp only [translateBinopInt, nativeResult, hy.shiftAmount]
    cases u with
    | true =>
      rw [if_pos rfl, if_pos rfl, ushiftRight_eq_ofInt, toNat_ofInt_eq_emod]
      rfl
    | false =>
      simp only [Bool.false_eq_true, if_false]
      rw [sshiftRight_eq_ofInt, hx.toInt_ofInt]
      rfl

end WordReading

/-! ## When a wrapped operation agrees -/

section Wrapped

variable {op : MirBinOp} {l r : SlotTy}

/-- The type whose slots the emitted code leaves. -/
def wrapTy (l r : SlotTy) : SlotTy := (narrowPick l r).getD .i64

theorem SlotTy.width_wider (l r : SlotTy) : (l.wider r).width = max l.width r.width := by
  cases l <;> cases r <;> rfl

theorem width_wrapTy_le (hl : l.isInt) : (wrapTy l r).width ≤ (l.wider r).width := by
  cases l <;> cases r <;> first | decide | cases hl

theorem toInt_narrowWrap (hop : isWrapped op = true) (z : ℤ) :
    (narrowWrap op l r (BitVec.ofInt 64 z)).toInt = (wrapTy l r).norm z := by
  have hmod : (BitVec.ofInt 64 z).toInt % 2 ^ 64 = z % 2 ^ 64 := by
    rw [BitVec.toInt_ofInt]
    exact_mod_cast Int.bmod_emod (x := z) (m := 2 ^ 64)
  rw [narrowWrap, if_pos hop, wrapTy]
  cases narrowPick l r with
  | none => exact BitVec.toInt_ofInt z
  | some t =>
    have hd := t.two_pow_width_dvd t.width_le
    refine (t.toInt_wrap _).trans (SlotTy.norm_eq_of_emod_eq ?_)
    rw [← Int.emod_emod_of_dvd _ hd, hmod, Int.emod_emod_of_dvd _ hd]

/-- The operands reach the native instruction as residues of their slots. -/
theorem translateBinOp_eq (a : BitVec l.width) (b : BitVec r.width) :
    translateBinOp op ⟨l.width, a⟩ ⟨r.width, b⟩ l.unsigned r.unsigned false =
      translateBinOpAt op (BitVec.ofInt (max l.width r.width) (l.slot a).toInt)
        (BitVec.ofInt (max l.width r.width) (r.slot b).toInt) (l.unsigned || r.unsigned) false := by
  have hle : max l.width r.width ≤ 64 := max_le l.width_le r.width_le
  rw [translateBinOp, SlotTy.extend_eq a hle, SlotTy.extend_eq b hle]

theorem wordReading_left (a : BitVec l.width) (r : SlotTy) :
    WordReading (max l.width r.width) (l.unsigned || r.unsigned) (l.slot a).toInt :=
  (SlotTy.fits_slot a).wordReading (l.max_width_cases r) (le_max_left _ _)
    fun h => (Bool.or_eq_false_iff.mp h).1

theorem wordReading_right (l : SlotTy) (b : BitVec r.width) :
    WordReading (max l.width r.width) (l.unsigned || r.unsigned) (r.slot b).toInt :=
  (SlotTy.fits_slot b).wordReading (l.max_width_cases r) (le_max_right _ _)
    fun h => (Bool.or_eq_false_iff.mp h).2

theorem exists_emitIntBinop (hpow : op ≠ .pow) :
    ∃ ops, emitIntBinop l.toMir r.toMir op = some ops := by
  cases op <;> first | exact ⟨_, rfl⟩ | exact absurd rfl hpow

/-- Agreement on a wrapped operation, in integers. -/
theorem binopAgrees_iff_norm (hop : isWrapped op = true) (hpow : op ≠ .pow)
    (a : BitVec l.width) (b : BitVec r.width) :
    BinopAgrees op l r a b ↔
      if SlotStops op (l.slot a).toInt (r.slot b).toInt then
        NativeStops op (max l.width r.width) (l.unsigned || r.unsigned)
          (l.slot a).toInt (r.slot b).toInt
      else
        ¬NativeStops op (max l.width r.width) (l.unsigned || r.unsigned)
          (l.slot a).toInt (r.slot b).toInt ∧
        (wrapTy l r).norm (slotResult op (l.slot a).toInt (r.slot b).toInt) =
          (l.wider r).norm (nativeResult op (max l.width r.width) (l.unsigned || r.unsigned)
            (l.slot a).toInt (r.slot b).toInt) := by
  have hx := wordReading_left a r
  have hy := wordReading_right l b
  have hres : resultTy op l r = l.wider r := by
    cases op <;> first | rfl | cases hop
  obtain ⟨ops, hops⟩ := exists_emitIntBinop (l := l) (r := r) hpow
  have hagree : BinopAgrees op l r a b ↔ ResultAgrees (l.wider r)
      ((rawBinop op (l.slot a) (r.slot b)).map (narrowWrap op l r))
      (translateBinOpAt op (BitVec.ofInt (max l.width r.width) (l.slot a).toInt)
        (BitVec.ofInt (max l.width r.width) (r.slot b).toInt) (l.unsigned || r.unsigned) false) := by
    simp only [BinopAgrees, hops, Option.some.injEq, forall_eq', hres, translateBinOp_eq,
      leaves_emitIntBinop hops, forall_const]
  rw [hagree]
  by_cases hs : SlotStops op (l.slot a).toInt (r.slot b).toInt
  · obtain ⟨e, he⟩ := rawBinop_stops hs
    rw [if_pos hs, he]
    by_cases hn : NativeStops op (max l.width r.width) (l.unsigned || r.unsigned)
        (l.slot a).toInt (r.slot b).toInt
    · obtain ⟨e', he'⟩ := WordReading.translateBinOpAt_stops hx hy hn
      simp [he', hn, ResultAgrees, Except.map]
    · rw [WordReading.translateBinOpAt_ok hop hpow hx hy hn]
      simp [hn, ResultAgrees, Except.map]
  · rw [if_neg hs, rawBinop_ok hop hpow hs]
    by_cases hn : NativeStops op (max l.width r.width) (l.unsigned || r.unsigned)
        (l.slot a).toInt (r.slot b).toInt
    · obtain ⟨e', he'⟩ := WordReading.translateBinOpAt_stops hx hy hn
      simp [he', hn, ResultAgrees, Except.map]
    · rw [WordReading.translateBinOpAt_ok hop hpow hx hy hn]
      simp only [ResultAgrees, Except.map, l.width_wider r, true_and, hn, not_false_eq_true]
      rw [← BitVec.toInt_inj, toInt_narrowWrap hop, SlotTy.toInt_extend (l.width_wider r).symm]

end Wrapped

/-! ## The condition

For one type on both sides most of these hold of every value: what is left are shift amounts
beyond a narrow width, the minimum divided by `-1`, and the upper half of `u64`. -/

/-- `x << k`, with `k` the amount modulo 64: native code reduces it modulo `w`. -/
def ShlSafe (p t : SlotTy) (w : ℕ) (x : ℤ) (k : ℕ) : Prop :=
  if k < w then p.Fits (t.norm (x * 2 ^ k)) else 2 ^ w ∣ x * 2 ^ (k % w)

/-- `x >> k` on signed operands. -/
def SshrSafe (p t : SlotTy) (w : ℕ) (x : ℤ) (k : ℕ) : Prop :=
  if k < w then p.Fits (t.norm (x / 2 ^ k))
  else t.norm (x / 2 ^ (k % w)) = if x < 0 then -1 else 0

/-- `x >> k` when an operand is unsigned: the slot is shifted arithmetically, the native value
logically. -/
def UshrSafe (p t : SlotTy) (w : ℕ) (x : ℤ) (k : ℕ) : Prop :=
  if 0 ≤ x then
    if k < w then p.Fits (t.norm (x / 2 ^ k)) else x < 2 ^ (k % w)
  else
    if k < w then p.width ≤ w - k ∧ p.Fits (t.norm (x / 2 ^ k + 2 ^ (w - k)))
    else p.norm (-1) = t.norm ((x + 2 ^ w) / 2 ^ (k % w))

/-- Signed division by `y ≠ 0`: the overflowing quotient traps in 64 bits only. -/
def SdivSafe (p t : SlotTy) (w : ℕ) (x y : ℤ) : Prop :=
  if x = -2 ^ (w - 1) ∧ y = -1 then w = 64 else p.Fits (t.norm (x.tdiv y))

/-- Signed remainder by `y ≠ 0`: native code rejects the minimum modulo `-1`, `i64.rem_s` does
not. -/
def SremSafe (p t : SlotTy) (w : ℕ) (x y : ℤ) : Prop :=
  ¬(x = -2 ^ (w - 1) ∧ y = -1) ∧ p.Fits (t.norm (x.tmod y))

/-- Unsigned division by `y ≠ 0`, in signed readings: a negative reading is a value of the upper
half. -/
def UdivSafe (l r : SlotTy) (x y : ℤ) : Prop :=
  if 0 ≤ x ∧ 0 ≤ y then (wrapTy l r).Fits ((l.wider r).norm (x / y))
  else if l = .u64 ∧ r = .u64 then y = 1 ∨ (0 ≤ x ∧ x + y < 0) ∨ x = y
  else ¬(x = -2 ^ 63 ∧ y = -1) ∧ (wrapTy l r).norm (x.tdiv y) =
    (l.wider r).norm (x % 2 ^ max l.width r.width / (y % 2 ^ max l.width r.width))

/-- Unsigned remainder by `y ≠ 0`. -/
def UremSafe (l r : SlotTy) (x y : ℤ) : Prop :=
  if 0 ≤ x ∧ 0 ≤ y then (wrapTy l r).Fits ((l.wider r).norm (x % y))
  else if l = .u64 ∧ r = .u64 then
    (0 < y ∧ y ∣ x ∧ y ∣ 2 ^ 64) ∨ (0 ≤ x ∧ x + y < 0) ∨ x = y
  else (wrapTy l r).norm (x.tmod y) =
    (l.wider r).norm (x % 2 ^ max l.width r.width % (y % 2 ^ max l.width r.width))

/-- Signed readings order as the unsigned values do. When only one is negative they do so by
accident of the widths, and a tie goes the right way for the strict comparisons (`<` and `>=`) or
for the other two. -/
def OrderSafe (w : ℕ) (isUnsigned strict : Bool) (x y : ℤ) : Prop :=
  isUnsigned = false ∨ (x < 0 ↔ y < 0) ∨
    (x < 0 ∧ (x + 2 ^ w < y ∨ strict = false ∧ x + 2 ^ w = y)) ∨
    (y < 0 ∧ (y + 2 ^ w < x ∨ strict = true ∧ y + 2 ^ w = x))

/-- The condition under which a binary operation of operand types `l` and `r` agrees, on the signed
readings `x` and `y` of the operand slots. -/
def BinopSafe (op : MirBinOp) (l r : SlotTy) (x y : ℤ) : Prop :=
  let w := max l.width r.width
  let u := l.unsigned || r.unsigned
  match op with
  | .add | .sub | .mul | .bitAnd | .bitOr | .bitXor =>
    (wrapTy l r).Fits ((l.wider r).norm (slotResult op x y))
  | .shl => ShlSafe (wrapTy l r) (l.wider r) w x (y % 64).toNat
  | .shr => if u then UshrSafe (wrapTy l r) (l.wider r) w x (y % 64).toNat
    else SshrSafe (wrapTy l r) (l.wider r) w x (y % 64).toNat
  | .div => y = 0 ∨ if u then UdivSafe l r x y else SdivSafe (wrapTy l r) (l.wider r) w x y
  | .mod => y = 0 ∨ if u then UremSafe l r x y else SremSafe (wrapTy l r) (l.wider r) w x y
  | .eq | .neq => x = y ∨ ¬2 ^ w ∣ x - y
  | .lt | .gtEq => OrderSafe w u true x y
  | .gt | .ltEq => OrderSafe w u false x y
  | .pow => True
  | .and | .or => False

/-! ### The shifts -/

theorem SlotTy.norm_eq_zero_iff (t : SlotTy) (z : ℤ) : t.norm z = 0 ↔ 2 ^ t.width ∣ z := by
  have h0 : t.norm 0 = 0 := by cases t <;> decide
  rw [Int.dvd_iff_emod_eq_zero]
  constructor
  · intro h
    rw [← t.norm_emod, h, Int.zero_emod]
  · intro h
    rw [← h0]
    exact norm_eq_of_emod_eq (by rw [h, Int.zero_emod])

section Shifts

variable {p t : SlotTy} {w : ℕ} {u : Bool} {x y : ℤ}

/-- The native shift amount. -/
theorem emod_width_eq (hw : w = 8 ∨ w = 16 ∨ w = 32 ∨ w = 64) (y : ℤ) :
    (y % w).toNat = (y % 64).toNat % w := by
  obtain rfl | rfl | rfl | rfl := hw <;> norm_num <;> omega

theorem shl_iff (hpt : p.width ≤ t.width) (htw : t.width = w) (k : ℕ) :
    p.norm (x * 2 ^ k) = t.norm (x * 2 ^ (k % w)) ↔ ShlSafe p t w x k := by
  unfold ShlSafe
  by_cases hk : k < w
  · rw [if_pos hk, Nat.mod_eq_of_lt hk, SlotTy.norm_eq_norm_iff hpt]
    exact and_iff_right rfl
  · have hS : p.norm (x * 2 ^ k) = 0 := by
      rw [p.norm_eq_zero_iff]
      exact Dvd.dvd.mul_left (pow_dvd_pow 2 (by omega)) x
    rw [if_neg hk, hS, eq_comm, t.norm_eq_zero_iff, htw]

/-- Shifting a word by at least its width leaves the sign. -/
theorem WordReading.ediv_two_pow (hx : WordReading w u x) {k : ℕ} (hk : w ≤ k) :
    x / 2 ^ k = if x < 0 then -1 else 0 := by
  have hpow : (2 ^ w : ℤ) ≤ 2 ^ k := pow_le_pow_right₀ (by decide) hk
  have hhalf : (2 ^ (w - 1) : ℤ) ≤ 2 ^ w := pow_le_pow_right₀ (by decide) (by omega)
  have hlo := hx.lower
  have hup := hx.upper
  split
  · rw [Int.ediv_eq_iff_of_pos (by positivity)]
    omega
  · exact Int.ediv_eq_zero_of_lt (by omega) (by omega)

theorem sshr_iff (hpt : p.width ≤ t.width) (hp : p.unsigned = false) (hx : WordReading w u x)
    (k : ℕ) : p.norm (x / 2 ^ k) = t.norm (x / 2 ^ (k % w)) ↔ SshrSafe p t w x k := by
  unfold SshrSafe
  by_cases hk : k < w
  · rw [if_pos hk, Nat.mod_eq_of_lt hk, SlotTy.norm_eq_norm_iff hpt]
    exact and_iff_right rfl
  · have hfill : p.norm (if x < 0 then -1 else 0) = if x < 0 then -1 else 0 := by
      split <;> cases p <;> first | decide | cases hp
    rw [if_neg hk, hx.ediv_two_pow (not_lt.mp hk), hfill, eq_comm]

theorem ushr_iff (hpt : p.width ≤ t.width) (htw : t.width = w) (hx : WordReading w u x) (k : ℕ) :
    p.norm (x / 2 ^ k) = t.norm (x % 2 ^ w / 2 ^ (k % w)) ↔ UshrSafe p t w x k := by
  have hlo := hx.lower
  have hup := hx.upper
  have hhalf : (2 ^ (w - 1) : ℤ) ≤ 2 ^ w := pow_le_pow_right₀ (by decide) (by omega)
  unfold UshrSafe
  by_cases h0 : 0 ≤ x
  · rw [if_pos h0, Int.emod_eq_of_lt h0 hup]
    by_cases hk : k < w
    · rw [if_pos hk, Nat.mod_eq_of_lt hk, SlotTy.norm_eq_norm_iff hpt]
      exact and_iff_right rfl
    · have hp0 : p.norm 0 = 0 := (p.norm_eq_zero_iff 0).mpr (dvd_zero _)
      rw [if_neg hk, hx.ediv_two_pow (not_lt.mp hk), if_neg (not_lt.mpr h0), hp0, eq_comm,
        t.norm_eq_zero_iff, htw]
      have hle : x / 2 ^ (k % w) ≤ x := Int.ediv_le_self _ h0
      constructor
      · intro hd
        by_contra hge
        have hpos : 1 ≤ x / 2 ^ (k % w) := (Int.le_ediv_iff_mul_le (by positivity)).mpr (by omega)
        exact absurd (Int.le_of_dvd hpos hd) (by omega)
      · intro hlt
        rw [Int.ediv_eq_zero_of_lt h0 hlt]
        exact dvd_zero _
  · have hmod : x % 2 ^ w = x + 2 ^ w := by
      rw [← Int.add_emod_right, Int.emod_eq_of_lt (by omega) (by omega)]
    rw [if_neg h0, hmod]
    by_cases hk : k < w
    · have hsplit : (2 ^ w : ℤ) = 2 ^ (w - k) * 2 ^ k := by rw [← pow_add, Nat.sub_add_cancel hk.le]
      have hdiv : (x + 2 ^ w) / 2 ^ k = x / 2 ^ k + 2 ^ (w - k) := by
        rw [hsplit, Int.add_mul_ediv_right _ _ (by positivity)]
      rw [if_pos hk, Nat.mod_eq_of_lt hk, hdiv, SlotTy.norm_eq_norm_iff hpt]
      refine and_congr_left fun _ => ?_
      rw [eq_comm, Int.emod_eq_emod_iff_emod_sub_eq_zero, add_sub_cancel_left,
        ← Int.dvd_iff_emod_eq_zero]
      exact pow_dvd_pow_iff two_ne_zero Int.prime_two.not_isUnit
    · rw [if_neg hk, hx.ediv_two_pow (not_lt.mp hk), if_pos (not_le.mp h0)]

end Shifts

/-! ### Division of `u64`s -/

section UnsignedDivision

variable {x y : ℤ}

/-- The signed reading of the upper half. -/
theorem emod_two_pow_64_of_neg (hx : -2 ^ 63 ≤ x) (h : x < 0) : x % 2 ^ 64 = x + 2 ^ 64 := by
  omega

theorem norm_u64_of_lt {z : ℤ} (h0 : 0 ≤ z) (h : z < 2 ^ 63) : SlotTy.u64.norm z = z :=
  SlotTy.norm_of_fits ⟨le_trans (by decide) h0, Int.le_sub_one_of_lt h⟩

theorem norm_u64_add (z : ℤ) (h₁ : -2 ^ 63 ≤ z) (h₂ : z < 0) : SlotTy.u64.norm (z + 2 ^ 64) = z := by
  have hz : SlotTy.u64.norm (z + 2 ^ 64) = SlotTy.u64.norm z :=
    SlotTy.norm_eq_of_emod_eq (Int.add_emod_right z _)
  rw [hz]
  exact SlotTy.norm_of_fits ⟨h₁, by have : SlotTy.u64.maxSlot = 2 ^ 63 - 1 := rfl; omega⟩

/-- A truncated quotient of 64-bit words overflows in one case only. -/
theorem norm_i64_tdiv (hx : -2 ^ 63 ≤ x ∧ x < 2 ^ 63) (hy0 : y ≠ 0)
    (hmin : ¬(x = -2 ^ 63 ∧ y = -1)) : SlotTy.i64.norm (x.tdiv y) = x.tdiv y := by
  have habs : (x.tdiv y).natAbs = x.natAbs / y.natAbs := Int.natAbs_tdiv x y
  have hfits : -2 ^ 63 ≤ x.tdiv y ∧ x.tdiv y ≤ 2 ^ 63 - 1 := by
    by_cases h1 : y = -1
    · rw [h1, Int.tdiv_neg, Int.tdiv_one]
      omega
    by_cases h2 : y = 1
    · rw [h2, Int.tdiv_one]
      omega
    · have hhalf : x.natAbs / y.natAbs ≤ x.natAbs / 2 := Nat.div_le_div_left (by omega) (by decide)
      omega
  exact SlotTy.norm_of_fits hfits

section

variable (hx : -2 ^ 63 ≤ x ∧ x < 2 ^ 63) (hy : -2 ^ 63 ≤ y ∧ y < 2 ^ 63) (hy0 : y ≠ 0)
  (hneg : ¬(0 ≤ x ∧ 0 ≤ y))

include hx hy hy0 hneg

theorem udiv_u64_iff (hmin : ¬(x = -2 ^ 63 ∧ y = -1)) :
    SlotTy.i64.norm (x.tdiv y) = SlotTy.u64.norm (x % 2 ^ 64 / (y % 2 ^ 64)) ↔
      y = 1 ∨ (0 ≤ x ∧ x + y < 0) ∨ x = y := by
  rw [norm_i64_tdiv hx hy0 hmin]
  obtain hxneg | hxpos := lt_or_ge x 0
  · rw [emod_two_pow_64_of_neg hx.1 hxneg]
    obtain ⟨a, rfl⟩ : ∃ a, x = -a := ⟨-x, by ring⟩
    obtain hyneg | hypos := lt_or_ge y 0
    · rw [emod_two_pow_64_of_neg hy.1 hyneg]
      obtain ⟨b, rfl⟩ : ∃ b, y = -b := ⟨-y, by ring⟩
      rw [Int.neg_tdiv_neg, Int.tdiv_eq_ediv_of_nonneg (by omega)]
      obtain hlt | rfl | hgt := lt_trichotomy a b
      · rw [Int.ediv_eq_zero_of_lt (by omega) hlt]
        have hN : (-a + 2 ^ 64) / (-b + 2 ^ 64) = 1 := by
          rw [Int.ediv_eq_iff_of_pos (by omega)]
          omega
        rw [hN, norm_u64_of_lt (by omega) (by omega)]
        omega
      · rw [Int.ediv_self (by omega), Int.ediv_self (by omega), norm_u64_of_lt (by omega) (by omega)]
        omega
      · have h1 : 1 ≤ a / b := (Int.le_ediv_iff_mul_le (by omega)).mpr (by omega)
        rw [Int.ediv_eq_zero_of_lt (a := -a + 2 ^ 64) (by omega) (by omega),
          norm_u64_of_lt (by omega) (by omega)]
        omega
    · rw [Int.emod_eq_of_lt hypos (by omega), Int.neg_tdiv, Int.tdiv_eq_ediv_of_nonneg (by omega)]
      by_cases h1 : y = 1
      · subst h1
        rw [Int.ediv_one, Int.ediv_one, norm_u64_add _ (by omega) (by omega)]
        omega
      · have hpos : 0 ≤ a / y := Int.ediv_nonneg (by omega) (by omega)
        have hN1 : 1 ≤ (-a + 2 ^ 64) / y := (Int.le_ediv_iff_mul_le (by omega)).mpr (by omega)
        have hN2 : (-a + 2 ^ 64) / y < 2 ^ 63 := by
          rw [Int.ediv_lt_iff_lt_mul (by omega)]
          omega
        rw [norm_u64_of_lt (by omega) hN2]
        omega
  · have hyneg : y < 0 := by omega
    rw [Int.emod_eq_of_lt hxpos (by omega), emod_two_pow_64_of_neg hy.1 hyneg,
      Int.ediv_eq_zero_of_lt hxpos (by omega), norm_u64_of_lt (by omega) (by omega)]
    obtain ⟨b, rfl⟩ : ∃ b, y = -b := ⟨-y, by ring⟩
    rw [Int.tdiv_neg, Int.tdiv_eq_ediv_of_nonneg hxpos, neg_eq_zero]
    constructor
    · intro h
      by_contra hge
      have := (Int.le_ediv_iff_mul_le (a := 1) (b := x) (c := b) (by omega)).mpr (by omega)
      omega
    · intro h
      exact Int.ediv_eq_zero_of_lt hxpos (by omega)

theorem urem_u64_iff :
    SlotTy.i64.norm (x.tmod y) = SlotTy.u64.norm (x % 2 ^ 64 % (y % 2 ^ 64)) ↔
      (0 < y ∧ y ∣ x ∧ y ∣ 2 ^ 64) ∨ (0 ≤ x ∧ x + y < 0) ∨ x = y := by
  have hS : SlotTy.i64.norm (x.tmod y) = x.tmod y := by
    have habs : (x.tmod y).natAbs = x.natAbs % y.natAbs := Int.natAbs_tmod x y
    have hlt : x.natAbs % y.natAbs < y.natAbs := Nat.mod_lt _ (by omega)
    have hfits : -2 ^ 63 ≤ x.tmod y ∧ x.tmod y ≤ 2 ^ 63 - 1 := by omega
    exact SlotTy.norm_of_fits hfits
  rw [hS]
  obtain hxneg | hxpos := lt_or_ge x 0
  · rw [emod_two_pow_64_of_neg hx.1 hxneg]
    obtain ⟨a, rfl⟩ : ∃ a, x = -a := ⟨-x, by ring⟩
    rw [Int.neg_tmod, Int.tmod_eq_emod_of_nonneg (by omega)]
    obtain hyneg | hypos := lt_or_ge y 0
    · rw [emod_two_pow_64_of_neg hy.1 hyneg]
      obtain ⟨b, rfl⟩ : ∃ b, y = -b := ⟨-y, by ring⟩
      rw [Int.emod_neg]
      obtain hlt | rfl | hgt := lt_trichotomy a b
      · have hN : (-a + 2 ^ 64) % (-b + 2 ^ 64) = b - a := by
          rw [← Int.sub_emod_right, Int.emod_eq_of_lt (by omega) (by omega)]
          ring
        rw [Int.emod_eq_of_lt (by omega) hlt, hN, norm_u64_of_lt (by omega) (by omega)]
        omega
      · rw [Int.emod_self, Int.emod_self, norm_u64_of_lt (by omega) (by omega)]
        omega
      · have hlt := Int.emod_lt_of_pos a (b := b) (by omega)
        rw [Int.emod_eq_of_lt (a := -a + 2 ^ 64) (by omega) (by omega),
          norm_u64_add _ (by omega) (by omega)]
        omega
    · have hN0 := Int.emod_nonneg (-a + 2 ^ 64) hy0
      have hN1 := Int.emod_lt_of_pos (-a + 2 ^ 64) (b := y) (by omega)
      have hS0 := Int.emod_nonneg a hy0
      rw [Int.emod_eq_of_lt hypos (by omega), norm_u64_of_lt hN0 (by omega)]
      have hdvd : y ∣ -a ∧ y ∣ 2 ^ 64 ↔ a % y = 0 ∧ (-a + 2 ^ 64) % y = 0 := by
        rw [← Int.dvd_iff_emod_eq_zero, ← Int.dvd_iff_emod_eq_zero, Int.dvd_neg]
        exact and_congr_right fun h => ((Int.dvd_add_right (Int.dvd_neg.mpr h))).symm
      rw [hdvd]
      omega
  · have hyneg : y < 0 := by omega
    rw [Int.emod_eq_of_lt hxpos (by omega), emod_two_pow_64_of_neg hy.1 hyneg,
      Int.emod_eq_of_lt hxpos (by omega), norm_u64_of_lt hxpos (by omega)]
    obtain ⟨b, rfl⟩ : ∃ b, y = -b := ⟨-y, by ring⟩
    rw [Int.tmod_neg, Int.tmod_eq_emod_of_nonneg hxpos]
    constructor
    · intro h
      have := Int.emod_lt_of_pos x (b := b) (by omega)
      omega
    · intro h
      exact Int.emod_eq_of_lt hxpos (by omega)

end

end UnsignedDivision

/-! ### Division in general -/

section Division

variable {p t l r : SlotTy} {w : ℕ} {x y : ℤ}

theorem slotStops_div_iff (hy0 : y ≠ 0) : SlotStops .div x y ↔ x = -2 ^ 63 ∧ y = -1 := by
  simp [SlotStops, hy0]

theorem slotStops_mod_iff : SlotStops .mod x y ↔ y = 0 := by
  simp [SlotStops]

theorem sdiv_iff (hpt : p.width ≤ t.width) (hx : WordReading w false x) (hy0 : y ≠ 0) :
    (if SlotStops .div x y then NativeStops .div w false x y
      else ¬NativeStops .div w false x y ∧ p.norm (x.tdiv y) = t.norm (x.tdiv y)) ↔
      SdivSafe p t w x y := by
  have hlo := hx.lower
  have hN : NativeStops .div w false x y ↔ x = -2 ^ (w - 1) ∧ y = -1 := by
    simp [NativeStops, hy0]
  simp only [slotStops_div_iff hy0, hN, SdivSafe]
  by_cases hmin : x = -2 ^ (w - 1) ∧ y = -1
  · rw [if_pos hmin]
    obtain rfl | rfl | rfl | rfl := hx.width <;> simp [hmin]
  · have hS : ¬(x = -2 ^ 63 ∧ y = -1) := by
      rintro ⟨rfl, rfl⟩
      refine hmin ⟨?_, rfl⟩
      obtain rfl | rfl | rfl | rfl := hx.width <;> first | rfl | exact absurd hlo (by decide)
    rw [if_neg hS, if_neg hmin, SlotTy.norm_eq_norm_iff hpt]
    simp [hmin]

theorem srem_iff (hpt : p.width ≤ t.width) (hy0 : y ≠ 0) :
    (¬NativeStops .mod w false x y ∧ p.norm (x.tmod y) = t.norm (x.tmod y)) ↔
      SremSafe p t w x y := by
  have hN : NativeStops .mod w false x y ↔ x = -2 ^ (w - 1) ∧ y = -1 := by
    simp [NativeStops, hy0]
  rw [hN, SlotTy.norm_eq_norm_iff hpt, SremSafe]
  exact and_congr_right fun _ => and_iff_right rfl

theorem not_nativeStops_true (hy0 : y ≠ 0) : ¬NativeStops op w true x y := by
  simp [NativeStops, hy0]

section

variable (hpt : (wrapTy l r).width ≤ (l.wider r).width)
  (hx : WordReading (max l.width r.width) true x) (hy : WordReading (max l.width r.width) true y)
  (hxl : l.Fits x) (hyr : r.Fits y) (hy0 : y ≠ 0)

include hpt hx hy hxl hyr hy0

theorem udiv_iff :
    (if SlotStops .div x y then NativeStops .div (max l.width r.width) true x y
      else ¬NativeStops .div (max l.width r.width) true x y ∧
        (wrapTy l r).norm (x.tdiv y) = (l.wider r).norm
          (x % 2 ^ max l.width r.width / (y % 2 ^ max l.width r.width))) ↔ UdivSafe l r x y := by
  simp only [slotStops_div_iff hy0, UdivSafe, not_nativeStops_true hy0, not_false_eq_true,
    true_and]
  by_cases hmin : x = -2 ^ 63 ∧ y = -1
  · rw [if_pos hmin]
    obtain ⟨rfl, rfl⟩ := hmin
    simp
  rw [if_neg hmin]
  by_cases hpos : 0 ≤ x ∧ 0 ≤ y
  · rw [if_pos hpos, Int.emod_eq_of_lt hpos.1 hx.upper, Int.emod_eq_of_lt hpos.2 hy.upper,
      Int.tdiv_eq_ediv_of_nonneg hpos.1, SlotTy.norm_eq_norm_iff hpt]
    exact and_iff_right rfl
  rw [if_neg hpos]
  by_cases hu64 : l = .u64 ∧ r = .u64
  · obtain ⟨rfl, rfl⟩ := hu64
    rw [if_pos ⟨rfl, rfl⟩]
    exact udiv_u64_iff ⟨hxl.1, Int.lt_of_le_sub_one hxl.2⟩ ⟨hyr.1, Int.lt_of_le_sub_one hyr.2⟩ hy0
      hpos hmin
  · rw [if_neg hu64]
    simp only [hmin, not_false_eq_true, true_and]

theorem urem_iff :
    (¬NativeStops .mod (max l.width r.width) true x y ∧
        (wrapTy l r).norm (x.tmod y) = (l.wider r).norm
          (x % 2 ^ max l.width r.width % (y % 2 ^ max l.width r.width))) ↔ UremSafe l r x y := by
  rw [UremSafe]
  simp only [not_nativeStops_true hy0, not_false_eq_true, true_and]
  by_cases hpos : 0 ≤ x ∧ 0 ≤ y
  · rw [if_pos hpos, Int.emod_eq_of_lt hpos.1 hx.upper, Int.emod_eq_of_lt hpos.2 hy.upper,
      Int.tmod_eq_emod_of_nonneg hpos.1, SlotTy.norm_eq_norm_iff hpt]
    exact and_iff_right rfl
  rw [if_neg hpos]
  by_cases hu64 : l = .u64 ∧ r = .u64
  · obtain ⟨rfl, rfl⟩ := hu64
    rw [if_pos ⟨rfl, rfl⟩]
    exact urem_u64_iff ⟨hxl.1, Int.lt_of_le_sub_one hxl.2⟩ ⟨hyr.1, Int.lt_of_le_sub_one hyr.2⟩ hy0
      hpos
  · rw [if_neg hu64]

end

end Division

/-! ### Comparisons -/

section Comparisons

variable {op : MirBinOp} {l r : SlotTy}

/-- The boolean a comparison computes from two readings. -/
def compareInt (op : MirBinOp) (x y : ℤ) : Bool :=
  match op with
  | .eq => x == y
  | .neq => x != y
  | .lt => x < y
  | .gt => y < x
  | .ltEq => x ≤ y
  | .gtEq => y ≤ x
  | _ => false

theorem rawBinop_comparison (hop : isComparison op = true) (a b : I64) :
    rawBinop op a b = .ok (if compareInt op a.toInt b.toInt then 1 else 0) := by
  cases op <;> first | exact absurd hop (by decide) | skip
  all_goals simp [rawBinop, compareInt, BitVec.slt, BitVec.sle, BitVec.toInt_inj]

/-- What a native comparison reads of an operand. -/
def nativeReading (w : ℕ) (isUnsigned : Bool) (x : ℤ) : ℤ := if isUnsigned then x % 2 ^ w else x

variable {w : ℕ}

/-- A native comparison compares the words' readings. -/
theorem translateBinOpAt_comparison_toNat (hop : isComparison op = true) (a b : BitVec w) :
    translateBinOpAt op a b true false = .ok (.ofBool (compareInt op a.toNat b.toNat)) := by
  have hbeq : (a == b) = ((a.toNat : ℤ) == b.toNat) := by
    rw [Bool.eq_iff_iff, beq_iff_eq, beq_iff_eq, Int.natCast_inj, BitVec.toNat_inj]
  cases op <;> first | exact absurd hop (by decide) | skip
  all_goals simp [translateBinOpAt, translateBinopInt, compareInt, BitVec.ult, BitVec.ule, bne, hbeq,
    pure, Except.pure]

theorem translateBinOpAt_comparison_toInt (hop : isComparison op = true) (a b : BitVec w) :
    translateBinOpAt op a b false false = .ok (.ofBool (compareInt op a.toInt b.toInt)) := by
  have hbeq : (a == b) = (a.toInt == b.toInt) := by
    rw [Bool.eq_iff_iff, beq_iff_eq, beq_iff_eq, BitVec.toInt_inj]
  cases op <;> first | exact absurd hop (by decide) | skip
  all_goals simp [translateBinOpAt, translateBinopInt, compareInt, BitVec.slt, BitVec.sle, bne, hbeq,
    pure, Except.pure]

theorem translateBinOpAt_comparison (hop : isComparison op = true) {u : Bool} {x y : ℤ}
    (hx : WordReading w u x) (hy : WordReading w u y) :
    translateBinOpAt op (BitVec.ofInt w x) (BitVec.ofInt w y) u false =
      .ok (.ofBool (compareInt op (nativeReading w u x) (nativeReading w u y))) := by
  cases u with
  | true =>
    rw [translateBinOpAt_comparison_toNat hop, toNat_ofInt_eq_emod, toNat_ofInt_eq_emod]
    rfl
  | false =>
    rw [translateBinOpAt_comparison_toInt hop, hx.toInt_ofInt, hy.toInt_ofInt]
    rfl

theorem extend_ofBool (c : Bool) :
    (ClInt.ofBool c).extend SlotTy.bool.unsigned 64 = if c then 1 else 0 := by
  cases c <;> decide

/-- Agreement on a comparison, in integers. -/
theorem binopAgrees_comparison_iff (hop : isComparison op = true) (a : BitVec l.width)
    (b : BitVec r.width) :
    BinopAgrees op l r a b ↔ compareInt op (l.slot a).toInt (r.slot b).toInt =
      compareInt op (nativeReading (max l.width r.width) (l.unsigned || r.unsigned) (l.slot a).toInt)
        (nativeReading (max l.width r.width) (l.unsigned || r.unsigned) (r.slot b).toInt) := by
  have hx := wordReading_left a r
  have hy := wordReading_right l b
  have hpow : op ≠ .pow := by rintro rfl; cases hop
  have hwrap : isWrapped op = false := by cases op <;> first | rfl | cases hop
  obtain ⟨ops, hops⟩ := exists_emitIntBinop (l := l) (r := r) hpow
  simp only [BinopAgrees, hops, Option.some.injEq, forall_eq', translateBinOp_eq, resultTy, hop,
    if_true, leaves_emitIntBinop hops, forall_const, rawBinop_comparison hop,
    translateBinOpAt_comparison hop hx hy, ResultAgrees, Except.map, extend_ofBool, narrowWrap,
    hwrap, Bool.false_eq_true, if_false]
  generalize compareInt op (l.slot a).toInt (r.slot b).toInt = c
  generalize compareInt op _ _ = d
  cases c <;> cases d <;> decide

theorem WordReading.nativeReading_true {x : ℤ} (hx : WordReading w true x) :
    nativeReading w true x = if x < 0 then x + 2 ^ w else x := by
  have hlo := hx.lower
  have hup := hx.upper
  have hhalf : (2 ^ (w - 1) : ℤ) ≤ 2 ^ w := pow_le_pow_right₀ (by decide) (by omega)
  simp only [nativeReading, if_true]
  split
  · rw [← Int.add_emod_right, Int.emod_eq_of_lt (by omega) (by omega)]
  · exact Int.emod_eq_of_lt (by omega) hup

section

variable {u : Bool} {x y : ℤ} (hx : WordReading w u x) (hy : WordReading w u y)

include hx hy

/-- Equality of the readings and of the words. -/
theorem WordReading.eq_iff :
    (x = y ↔ nativeReading w u x = nativeReading w u y) ↔ (x = y ∨ ¬2 ^ w ∣ x - y) := by
  cases u with
  | true =>
    have h : nativeReading w true x = nativeReading w true y ↔ 2 ^ w ∣ x - y := by
      simp only [nativeReading, if_true]
      rw [Int.emod_eq_emod_iff_emod_sub_eq_zero, Int.dvd_iff_emod_eq_zero]
    have hd : x = y → 2 ^ w ∣ x - y := by
      rintro rfl
      rw [sub_self]
      exact dvd_zero _
    rw [h]
    tauto
  | false =>
    have hsum : (2 ^ w : ℤ) = 2 ^ (w - 1) + 2 ^ (w - 1) := by
      obtain rfl | rfl | rfl | rfl := hx.width <;> norm_num
    have hne : x = y ∨ ¬2 ^ w ∣ x - y := by
      by_cases h : x = y
      · exact .inl h
      · refine .inr fun hd => h (Int.eq_of_sub_eq_zero (Int.eq_zero_of_abs_lt_dvd hd ?_))
        have h₁ := hx.lower
        have h₂ := hx.signed rfl
        have h₃ := hy.lower
        have h₄ := hy.signed rfl
        exact abs_lt.mpr ⟨by omega, by omega⟩
    exact iff_of_true Iff.rfl hne

/-- The order of the readings and of the words. -/
theorem WordReading.lt_iff :
    (x < y ↔ nativeReading w u x < nativeReading w u y) ↔ OrderSafe w u true x y := by
  cases u with
  | true =>
    have h₁ := hx.upper
    have h₂ := hy.upper
    rw [hx.nativeReading_true, hy.nativeReading_true]
    simp only [OrderSafe, Bool.true_eq_false, false_or, true_and, false_and, or_false]
    split_ifs <;> omega
  | false => exact iff_of_true Iff.rfl (.inl rfl)

theorem WordReading.le_iff :
    (x ≤ y ↔ nativeReading w u x ≤ nativeReading w u y) ↔ OrderSafe w u false x y := by
  cases u with
  | true =>
    have h₁ := hx.upper
    have h₂ := hy.upper
    rw [hx.nativeReading_true, hy.nativeReading_true]
    simp only [OrderSafe, Bool.true_eq_false, Bool.false_eq_true, false_or, true_and, false_and,
      or_false]
    split_ifs <;> omega
  | false => exact iff_of_true Iff.rfl (.inl rfl)

end

end Comparisons

/-! ## Exactly when a binary operation agrees -/

section Exactly

variable {op : MirBinOp} {l r : SlotTy} (hl : l.isInt) (a : BitVec l.width) (b : BitVec r.width)

/-- Only divisions stop. -/
theorem binopAgrees_iff_of_not_division (hop : isWrapped op = true) (hpow : op ≠ .pow)
    (hdiv : ¬(op = .div ∨ op = .mod)) :
    BinopAgrees op l r a b ↔
      (wrapTy l r).norm (slotResult op (l.slot a).toInt (r.slot b).toInt) =
        (l.wider r).norm (nativeResult op (max l.width r.width) (l.unsigned || r.unsigned)
          (l.slot a).toInt (r.slot b).toInt) := by
  have hS : ¬SlotStops op (l.slot a).toInt (r.slot b).toInt := by
    rintro (h | h)
    · exact hdiv h.1
    · exact hdiv (.inl h.1)
  rw [binopAgrees_iff_norm hop hpow, if_neg hS]
  exact and_iff_right fun h => hdiv h.1

include hl

/-- Ring and bitwise operations compute the same integer on both sides. -/
theorem binopAgrees_exact_iff (hop : isWrapped op = true) (hpow : op ≠ .pow)
    (hdiv : ¬(op = .div ∨ op = .mod))
    (hexact : ∀ w u x y, nativeResult op w u x y = slotResult op x y) :
    BinopAgrees op l r a b ↔
      (wrapTy l r).Fits ((l.wider r).norm (slotResult op (l.slot a).toInt (r.slot b).toInt)) := by
  rw [binopAgrees_iff_of_not_division a b hop hpow hdiv, hexact,
    SlotTy.norm_eq_norm_iff (width_wrapTy_le hl)]
  exact and_iff_right rfl

theorem binopAgrees_shl_iff :
    BinopAgrees .shl l r a b ↔ BinopSafe .shl l r (l.slot a).toInt (r.slot b).toInt := by
  rw [binopAgrees_iff_of_not_division a b rfl (by decide) (by decide)]
  simp only [slotResult, nativeResult, BinopSafe, emod_width_eq (l.max_width_cases r)]
  exact shl_iff (width_wrapTy_le hl) (l.width_wider r) _

theorem binopAgrees_shr_iff :
    BinopAgrees .shr l r a b ↔ BinopSafe .shr l r (l.slot a).toInt (r.slot b).toInt := by
  have hx := wordReading_left a r
  rw [binopAgrees_iff_of_not_division a b rfl (by decide) (by decide)]
  simp only [slotResult, nativeResult, BinopSafe, emod_width_eq (l.max_width_cases r)]
  by_cases hu : (l.unsigned || r.unsigned) = true
  · rw [if_pos hu, if_pos hu]
    exact ushr_iff (width_wrapTy_le hl) (l.width_wider r) hx _
  · rw [if_neg hu, if_neg hu]
    refine sshr_iff (width_wrapTy_le hl) ?_ hx _
    revert hu
    cases l <;> cases r <;> decide

theorem binopAgrees_div_iff :
    BinopAgrees .div l r a b ↔ BinopSafe .div l r (l.slot a).toInt (r.slot b).toInt := by
  have hx := wordReading_left a r
  have hy := wordReading_right l b
  have hxl := SlotTy.fits_slot a
  have hyr := SlotTy.fits_slot b
  rw [binopAgrees_iff_norm rfl (by decide)]
  simp only [slotResult, nativeResult, BinopSafe]
  by_cases hy0 : (r.slot b).toInt = 0
  · simp [SlotStops, NativeStops, hy0]
  · rw [or_iff_right hy0]
    cases hu : (l.unsigned || r.unsigned)
    · rw [hu] at hx
      simp only [Bool.false_eq_true, if_false]
      exact sdiv_iff (width_wrapTy_le hl) hx hy0
    · rw [hu] at hx hy
      simp only [if_true]
      exact udiv_iff (width_wrapTy_le hl) hx hy hxl hyr hy0

theorem binopAgrees_mod_iff :
    BinopAgrees .mod l r a b ↔ BinopSafe .mod l r (l.slot a).toInt (r.slot b).toInt := by
  have hx := wordReading_left a r
  have hy := wordReading_right l b
  have hxl := SlotTy.fits_slot a
  have hyr := SlotTy.fits_slot b
  rw [binopAgrees_iff_norm rfl (by decide)]
  simp only [slotResult, nativeResult, BinopSafe, slotStops_mod_iff]
  by_cases hy0 : (r.slot b).toInt = 0
  · simp [NativeStops, hy0]
  · rw [or_iff_right hy0, if_neg hy0]
    cases hu : (l.unsigned || r.unsigned)
    · simp only [Bool.false_eq_true, if_false]
      exact srem_iff (width_wrapTy_le hl) hy0
    · rw [hu] at hx hy
      simp only [if_true]
      exact urem_iff (width_wrapTy_le hl) hx hy hxl hyr hy0

omit hl in
theorem binopAgrees_comparison (hop : isComparison op = true) :
    BinopAgrees op l r a b ↔ BinopSafe op l r (l.slot a).toInt (r.slot b).toInt := by
  have hx := wordReading_left a r
  have hy := wordReading_right l b
  rw [binopAgrees_comparison_iff hop, Bool.eq_iff_iff]
  cases op <;> first | exact absurd hop (by decide) | skip
  all_goals simp only [compareInt, BinopSafe, beq_iff_eq, bne_iff_ne, decide_eq_true_eq]
  case eq => exact hx.eq_iff hy
  case neq => exact not_iff_not.trans (hx.eq_iff hy)
  case lt => exact hx.lt_iff hy
  case gt => rw [← hx.le_iff hy, ← not_le, ← not_le, not_iff_not]
  case ltEq => exact hx.le_iff hy
  case gtEq => rw [← hx.lt_iff hy, ← not_lt, ← not_lt, not_iff_not]

/-- **Binary operators.** The backends agree exactly under `BinopSafe`. -/
theorem binopAgrees_iff (hop : isIntOp op = true) :
    BinopAgrees op l r a b ↔ BinopSafe op l r (l.slot a).toInt (r.slot b).toInt := by
  cases op with
  | add | sub | mul | bitAnd | bitOr | bitXor =>
    exact binopAgrees_exact_iff hl a b rfl (by decide) (by decide) fun _ _ _ _ => rfl
  | shl => exact binopAgrees_shl_iff hl a b
  | shr => exact binopAgrees_shr_iff hl a b
  | div => exact binopAgrees_div_iff hl a b
  | mod => exact binopAgrees_mod_iff hl a b
  | eq | neq | lt | gt | ltEq | gtEq => exact binopAgrees_comparison a b rfl
  | pow => exact iff_of_true (fun ops h => by cases h) trivial
  | and | or => exact absurd hop (by decide)

end Exactly

end Wasm

end Kryos
