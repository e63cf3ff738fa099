import Kryos.Native.IntOps

/-!
# The compile-time constant evaluator

`kryos-mir/src/consteval.rs`: `eval_binop` and `eval_unop` fold an operation whose operands are
constants, or give the operation back unchanged.

## Agreement with the compiled program

The unfolded operation is compiled by the native backend, so that is what a fold is compared with:
`Native.translateBinOp` on the values the two constants load. A fold is right when every constant
it produces is the value the compiled operation computes, and when it never removes a panic.

Every operator is right on every pair of integer or boolean constants but one. `**` narrows its
exponent to 32 bits before `checked_pow` sees it, so an exponent of `2 ^ 32` or more is folded
modulo `2 ^ 32`. `PowFoldSafe` says exactly when that does no harm.

## Main results

* `foldAgrees_iff` — a fold agrees with the compiled operation exactly when `PowFoldSafe`
* `unopFoldAgrees` — folding a unary operation always agrees
-/

namespace Kryos

open MachineInt Native

/-! ## The evaluator -/

/-- The operation left as it was, for constants that cannot be folded. -/
def unfoldedBinop (op : MirBinOp) (left right : Constant) : RValue Operand :=
  .binOp op (.constant left) (.constant right)

/-- A checked integer fold: the exact result, or the operation unchanged. -/
def foldChecked (op : MirBinOp) (left right : Constant) : Option I64 → RValue Operand
  | some v => .constInt v
  | none => unfoldedBinop op left right

/-- The `f64` with a given bit pattern, and back. -/
def onFloats (f : Float → Float → Float) (a b : UInt64) : RValue Operand :=
  .constFloat (f (Float.ofBits a) (Float.ofBits b)).toBits

def evalBinop (op : MirBinOp) (left right : Constant) : RValue Operand :=
  match op, left, right with
  | .add, .int a, .int b => foldChecked op left right (checkedAdd a b)
  | .sub, .int a, .int b => foldChecked op left right (checkedSub a b)
  | .mul, .int a, .int b => foldChecked op left right (checkedMul a b)
  | .div, .int a, .int b =>
    if b ≠ 0 then foldChecked op left right (checkedDiv a b) else unfoldedBinop op left right
  | .mod, .int a, .int b =>
    if b ≠ 0 then foldChecked op left right (checkedRem a b) else unfoldedBinop op left right
  -- the exponent is `*b as u32`
  | .pow, .int a, .int b =>
    if 0 ≤ b.toInt then foldChecked op left right (checkedPow a (b.toNat % 2 ^ 32))
    else unfoldedBinop op left right
  | .add, .float a, .float b => onFloats (· + ·) a b
  | .sub, .float a, .float b => onFloats (· - ·) a b
  | .mul, .float a, .float b => onFloats (· * ·) a b
  | .div, .float a, .float b =>
    if Float.ofBits b != 0 then onFloats (· / ·) a b else unfoldedBinop op left right
  | .eq, .int a, .int b => .constBool (a == b)
  | .neq, .int a, .int b => .constBool (a != b)
  | .lt, .int a, .int b => .constBool (a.slt b)
  | .ltEq, .int a, .int b => .constBool (a.sle b)
  | .gt, .int a, .int b => .constBool (b.slt a)
  | .gtEq, .int a, .int b => .constBool (b.sle a)
  | .eq, .float a, .float b => .constBool (Float.ofBits a == Float.ofBits b)
  | .neq, .float a, .float b => .constBool (Float.ofBits a != Float.ofBits b)
  | .lt, .float a, .float b => .constBool (Float.ofBits a < Float.ofBits b)
  | .ltEq, .float a, .float b => .constBool (Float.ofBits a ≤ Float.ofBits b)
  | .gt, .float a, .float b => .constBool (Float.ofBits b < Float.ofBits a)
  | .gtEq, .float a, .float b => .constBool (Float.ofBits b ≤ Float.ofBits a)
  | .and, .bool a, .bool b => .constBool (a && b)
  | .or, .bool a, .bool b => .constBool (a || b)
  | .bitAnd, .int a, .int b => .constInt (a &&& b)
  | .bitOr, .int a, .int b => .constInt (a ||| b)
  | .bitXor, .int a, .int b => .constInt (a ^^^ b)
  -- the shift amounts are `*b as u32`
  | .shl, .int a, .int b => foldChecked op left right (checkedShl a (b.toNat % 2 ^ 32))
  | .shr, .int a, .int b => foldChecked op left right (checkedShr a (b.toNat % 2 ^ 32))
  | .add, .str a, .str b => .constString (a ++ b)
  | _, _, _ => unfoldedBinop op left right

def evalUnop (op : MirUnOp) (operand : Constant) : RValue Operand :=
  match op, operand with
  | .neg, .int v =>
    match checkedNeg v with
    | some n => .constInt n
    | none => .unOp op (.constant operand)
  | .neg, .float v => .constFloat (-Float.ofBits v).toBits
  | .not, .bool v => .constBool (!v)
  | .bitNot, .int v => .constInt (~~~v)
  | _, _ => .unOp op (.constant operand)

/-! ## What the unfolded operation computes -/

/-- The Cranelift value an integer or boolean constant loads (`translate_operand`). -/
def constValue : Constant → Option ClInt
  | .int v => some ⟨64, v⟩
  | .bool b => some (.ofBool b)
  | _ => none

/-- The Cranelift value a folded constant loads. -/
def foldedValue : RValue Operand → Option ClInt
  | .constInt v => some ⟨64, v⟩
  | .constBool b => some (.ofBool b)
  | _ => none

/-- A fold of `left op right` is right when a constant it gives is what the compiled operation
computes, and an operation that panics is left alone. Constant operands are never unsigned. -/
def FoldAgrees (checked : Bool) (op : MirBinOp) (left right : Constant) : Prop :=
  ∀ l r, constValue left = some l → constValue right = some r →
    (∀ v, foldedValue (evalBinop op left right) = some v →
      translateBinOp op l r false false checked = .ok v) ∧
    (∀ p, translateBinOp op l r false false checked = .error p →
      evalBinop op left right = unfoldedBinop op left right)

def UnopFoldAgrees (op : MirUnOp) (operand : Constant) : Prop :=
  ∀ x v, constValue operand = some x → foldedValue (evalUnop op operand) = some v →
    translateUnop op x = v

/-- Narrowing the exponent of `a ** b` to 32 bits does no harm: the exponent fits, or the narrowed
power overflows and nothing is folded, or both powers are zero, or the base is odd and the dropped
part of the exponent is a period of its powers modulo `2 ^ 64`. -/
def PowFoldSafe (op : MirBinOp) (left right : Constant) : Prop :=
  ∀ a b : I64, op = .pow → left = .int a → right = .int b → 0 ≤ b.toInt →
    b.toNat < 2 ^ 32 ∨
    ¬ Representable 64 (a.toInt ^ (b.toNat % 2 ^ 32)) ∨
    (a = 0 ∧ b.toNat % 2 ^ 32 ≠ 0) ∨
    (Odd a.toInt ∧
      (2 : ℤ) ^ 65 ∣ (a.toInt ^ 2 - 1) * ((b.toNat - b.toNat % 2 ^ 32 : ℕ) : ℤ))

@[simp] theorem foldedValue_unfoldedBinop (op : MirBinOp) (l r : Constant) :
    foldedValue (unfoldedBinop op l r) = none := rfl

theorem foldedValue_foldChecked {op : MirBinOp} {l r : Constant} {o : Option I64} {v : ClInt} :
    foldedValue (foldChecked op l r o) = some v ↔ ∃ x, o = some x ∧ v = ⟨64, x⟩ := by
  cases o with
  | none => simp [foldChecked]
  | some x => simp [foldChecked, foldedValue, eq_comm]

/-! ## Agreement, operator by operator -/

section Agreement

variable {checked : Bool} {op : MirBinOp}

/-- An operation that is never folded agrees. -/
theorem FoldAgrees.of_unfolded {l r : Constant} (h : evalBinop op l r = unfoldedBinop op l r) :
    FoldAgrees checked op l r :=
  fun _ _ _ _ => ⟨fun v hv => by simp [h] at hv, fun _ _ => h⟩

/-- On two integers, agreement is about 64-bit operands. -/
theorem foldAgrees_int_iff {a b : I64} :
    FoldAgrees checked op (.int a) (.int b) ↔
      (∀ v, foldedValue (evalBinop op (.int a) (.int b)) = some v →
        translateBinOpAt op a b false checked = .ok v) ∧
      (∀ p, translateBinOpAt op a b false checked = .error p →
        evalBinop op (.int a) (.int b) = unfoldedBinop op (.int a) (.int b)) := by
  constructor
  · intro h
    simpa [translateBinOp_same] using h ⟨64, a⟩ ⟨64, b⟩ rfl rfl
  · rintro h l r hl hr
    obtain rfl : l = ⟨64, a⟩ := (Option.some.inj hl).symm
    obtain rfl : r = ⟨64, b⟩ := (Option.some.inj hr).symm
    simpa [translateBinOp_same] using h

/-- An operation that always succeeds only has to fold to its own value. -/
theorem FoldAgrees.of_ok {a b : I64} {c : ClInt}
    (hrun : translateBinOpAt op a b false checked = .ok c)
    (hfold : ∀ v, foldedValue (evalBinop op (.int a) (.int b)) = some v → v = c) :
    FoldAgrees checked op (.int a) (.int b) :=
  foldAgrees_int_iff.mpr ⟨fun v hv => by rw [hfold v hv, hrun], fun p hp => by simp [hrun] at hp⟩

/-- A checked fold of an operation that wraps, and traps when asked to check. -/
theorem FoldAgrees.of_checked {a b x : I64} {overflow : Bool}
    (heval : evalBinop op (.int a) (.int b) =
      foldChecked op (.int a) (.int b) (unlessOverflow overflow x))
    (hrun : translateBinOpAt op a b false checked =
      if checked && overflow then .error (.trap 2) else .ok ⟨64, x⟩) :
    FoldAgrees checked op (.int a) (.int b) := by
  refine foldAgrees_int_iff.mpr ⟨fun v hv => ?_, fun p hp => ?_⟩
  · rw [heval, foldedValue_foldChecked] at hv
    obtain ⟨y, hy, rfl⟩ := hv
    obtain ⟨hno, rfl⟩ := unlessOverflow_eq_some.mp hy
    simp [hrun, hno]
  · rw [hrun] at hp
    cases overflow with
    | false => simp at hp
    | true => rw [heval, unlessOverflow_eq_none.mpr rfl]; rfl

/-- The division guard on 64-bit operands lets through exactly what the checked operations fold. -/
theorem divisionGuard_eq (a b : I64) :
    divisionGuard a b false =
      if b = 0 then .error (.kryosPanic "integer division by zero")
      else if a.sdivOverflow b then .error (.kryosPanic "integer division overflow") else .ok () := by
  have hov : (b.toInt = -1 ∧ a.toInt = -2 ^ 63) ↔ a.sdivOverflow b = true := by
    simp [BitVec.sdivOverflow_eq, ← BitVec.toInt_inj, and_comm, BitVec.toInt_intMin]
  have hmin : signedMin (min 64 64) = -2 ^ 63 := rfl
  simp only [divisionGuard, kryosCheckSdivI64, BitVec.signExtend_eq, hmin, hov]
  rfl

theorem foldAgrees_division {a b x : I64} (hop : op = .div ∨ op = .mod)
    (heval : evalBinop op (.int a) (.int b) = if b ≠ 0 then
      foldChecked op (.int a) (.int b) (unlessOverflow (b == 0 || a.sdivOverflow b) x)
      else unfoldedBinop op (.int a) (.int b))
    (hrun : translateBinopInt op a b false checked = .ok ⟨64, x⟩) :
    FoldAgrees checked op (.int a) (.int b) := by
  have hpow : op ≠ .pow := by rintro rfl; simp at hop
  have hat : translateBinOpAt op a b false checked =
      (do divisionGuard a b false; .ok ⟨64, x⟩) := by
    simp only [translateBinOpAt, if_neg hpow, if_pos hop, hrun]
  by_cases hb : b = 0
  · exact .of_unfolded (by rw [heval, if_neg (by simpa using hb)])
  rw [if_pos hb] at heval
  rw [divisionGuard_eq, if_neg hb] at hat
  refine foldAgrees_int_iff.mpr ⟨fun v hv => ?_, fun p hp => ?_⟩
  · rw [heval, foldedValue_foldChecked] at hv
    obtain ⟨y, hy, rfl⟩ := hv
    obtain ⟨hno, rfl⟩ := unlessOverflow_eq_some.mp hy
    rw [Bool.or_eq_false_iff] at hno
    rw [hat, if_neg (by simp [hno.2])]
    rfl
  · rw [hat] at hp
    by_cases ho : a.sdivOverflow b = true
    · rw [heval, unlessOverflow_eq_none.mpr (by simp [ho])]
      rfl
    · rw [if_neg ho] at hp
      exact absurd hp (by simp [bind, Except.bind])

/-- A shift folds only when the amount, narrowed to 32 bits, is below 64; it is then the amount
the machine uses. -/
theorem foldAgrees_shift {a b : I64} {f : ℕ → I64}
    (heval : evalBinop op (.int a) (.int b) = foldChecked op (.int a) (.int b)
      (if b.toNat % 2 ^ 32 < 64 then some (f (b.toNat % 2 ^ 32)) else none))
    (hrun : translateBinOpAt op a b false checked = .ok ⟨64, f (b.toNat % 64)⟩) :
    FoldAgrees checked op (.int a) (.int b) := by
  refine .of_ok hrun fun v hv => ?_
  rw [heval, foldedValue_foldChecked] at hv
  obtain ⟨x, hx, rfl⟩ := hv
  split at hx
  case isTrue hlt =>
    obtain rfl := Option.some.inj hx
    rw [show b.toNat % 2 ^ 32 = b.toNat % 64 by omega]
  case isFalse => cases hx

/-- Everything but `**` agrees on integers. -/
theorem foldAgrees_int (hop : op ≠ .pow) (a b : I64) :
    FoldAgrees checked op (.int a) (.int b) := by
  cases op with
  | add => exact .of_checked (x := a + b) rfl rfl
  | sub => exact .of_checked (x := a - b) rfl rfl
  | mul => exact .of_checked (x := a * b) rfl rfl
  | div => exact foldAgrees_division (Or.inl rfl) rfl rfl
  | mod => exact foldAgrees_division (Or.inr rfl) rfl rfl
  | pow => exact absurd rfl hop
  | shl => exact foldAgrees_shift (f := fun n => a <<< n) rfl rfl
  | shr => exact foldAgrees_shift (f := fun n => a.sshiftRight n) rfl rfl
  | and | or => exact .of_unfolded rfl
  | eq | neq | lt | gt | ltEq | gtEq | bitAnd | bitOr | bitXor =>
    exact .of_ok rfl fun v hv => (Option.some.inj hv).symm

theorem foldAgrees_bool (a b : Bool) : FoldAgrees checked op (.bool a) (.bool b) := by
  cases op with
  | and | or =>
    rintro l r hl hr
    obtain rfl := Option.some.inj hl
    obtain rfl := Option.some.inj hr
    refine ⟨fun v hv => ?_, fun p hp => ?_⟩
    · obtain rfl := Option.some.inj hv
      cases a <;> cases b <;> rfl
    · cases a <;> cases b <;> cases hp
  | _ => exact .of_unfolded rfl

/-- `**` agrees exactly when the narrowed exponent gives the same wrapped power. -/
theorem foldAgrees_pow_iff {a b : I64} :
    FoldAgrees checked .pow (.int a) (.int b) ↔ PowFoldSafe .pow (.int a) (.int b) := by
  have hrun : translateBinOpAt .pow a b false checked = .ok ⟨64, kryosIpow a b⟩ := by
    simp [translateBinOpAt]
  have hsafe : PowFoldSafe .pow (.int a) (.int b) ↔ (0 ≤ b.toInt →
      b.toNat < 2 ^ 32 ∨ ¬ Representable 64 (a.toInt ^ (b.toNat % 2 ^ 32)) ∨
      (a = 0 ∧ b.toNat % 2 ^ 32 ≠ 0) ∨
      (Odd a.toInt ∧
        (2 : ℤ) ^ 65 ∣ (a.toInt ^ 2 - 1) * ((b.toNat - b.toNat % 2 ^ 32 : ℕ) : ℤ))) := by
    constructor
    · exact fun h => h a b rfl rfl rfl
    · rintro h a' b' - ⟨⟩ ⟨⟩
      exact h
  rw [hsafe]
  by_cases hb : 0 ≤ b.toInt
  swap
  · have heval : evalBinop .pow (.int a) (.int b) = unfoldedBinop .pow (.int a) (.int b) :=
      if_neg hb
    exact iff_of_true (.of_unfolded heval) fun h => absurd h hb
  have heval : evalBinop .pow (.int a) (.int b) =
      foldChecked .pow (.int a) (.int b) (checkedPow a (b.toNat % 2 ^ 32)) := if_pos hb
  by_cases hrep : Representable 64 (a.toInt ^ (b.toNat % 2 ^ 32))
  swap
  · have hnone : checkedPow a (b.toNat % 2 ^ 32) = none := if_neg hrep
    exact iff_of_true (.of_unfolded (by rw [heval, hnone]; rfl)) fun _ => Or.inr (Or.inl hrep)
  have hsome : checkedPow a (b.toNat % 2 ^ 32) = some (a ^ (b.toNat % 2 ^ 32)) := by
    rw [checkedPow, if_pos hrep, ofInt_toInt_pow]
  have hagree : FoldAgrees checked .pow (.int a) (.int b) ↔
      a ^ (b.toNat % 2 ^ 32) = a ^ b.toNat := by
    rw [foldAgrees_int_iff, heval, hsome, hrun, kryosIpow_of_nonneg hb]
    constructor
    · intro h
      have := h.1 _ rfl
      simpa [eq_comm] using this
    · intro h
      refine ⟨fun v hv => ?_, fun p hp => by cases hp⟩
      obtain rfl := Option.some.inj hv
      rw [h]
  have ha0 : a.toInt = 0 ↔ a = 0 := by
    rw [← BitVec.toInt_inj]
    rfl
  rw [hagree, ← ofInt_toInt_pow, ← ofInt_toInt_pow, ofInt_eq_ofInt_iff,
    two_pow_dvd_pow_sub_pow_iff hrep, ha0]
  simp only [hb, hrep, not_true, false_or, true_implies]

/-- A fold agrees with the compiled operation exactly when narrowing the exponent does no harm. -/
theorem foldAgrees_iff (checked : Bool) (op : MirBinOp) (l r : Constant) :
    FoldAgrees checked op l r ↔ PowFoldSafe op l r := by
  have vacuous : (∀ a b, op = .pow → l = .int a → r = .int b → False) → PowFoldSafe op l r :=
    fun h a b ho hl hr _ => (h a b ho hl hr).elim
  match l, r with
  | .int a, .int b =>
    by_cases hop : op = .pow
    · subst hop
      exact foldAgrees_pow_iff
    · exact iff_of_true (foldAgrees_int hop a b) (vacuous fun _ _ ho => absurd ho hop)
  | .bool a, .bool b => exact iff_of_true (foldAgrees_bool a b) (vacuous (by simp))
  | .int a, .bool b | .bool a, .int b =>
    exact iff_of_true (.of_unfolded (by cases op <;> rfl)) (vacuous (by simp))
  | .float _, _ | .str _, _ | .none, _ =>
    exact iff_of_true (fun _ _ h => by cases h) (vacuous (by simp))
  | _, .float _ | _, .str _ | _, .none =>
    exact iff_of_true (fun _ _ _ h => by cases h) (vacuous (by simp))

theorem unopFoldAgrees (op : MirUnOp) (c : Constant) : UnopFoldAgrees op c := by
  rintro x v hx hv
  match op, c with
  | .neg, .int a =>
    obtain rfl := Option.some.inj hx
    simp only [evalUnop] at hv
    split at hv
    case h_1 n hn =>
      obtain ⟨-, rfl⟩ := unlessOverflow_eq_some.mp hn
      exact Option.some.inj hv
    case h_2 => cases hv
  | .bitNot, .int a =>
    obtain rfl := Option.some.inj hx
    exact Option.some.inj hv
  | .not, .bool b =>
    obtain rfl := Option.some.inj hx
    obtain rfl := Option.some.inj hv
    cases b <;> rfl
  | .not, .int _ | .neg, .bool _ | .bitNot, .bool _ => cases hv
  | _, .float _ | _, .str _ | _, .none => cases hx

end Agreement

end Kryos
