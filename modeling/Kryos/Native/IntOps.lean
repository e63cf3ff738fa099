import Kryos.Lib.MachineInt
import Kryos.Mir.Ir

/-!
# Integer operations of the native backend

What the Cranelift backend computes for an integer `BinOp`, `UnOp` or `Cast`
(`translate_rvalue`, `translate_binop_int`, `translate_unop`, `translate_cast` in
`kryos-codegen-cranelift/src/codegen.rs`), together with the runtime helpers it calls
(`kryos_ipow`, `kryos_check_sdiv_i64`, `kryos_check_div_zero_i64` in `kryos-rt/src/builtins.rs`).

A Cranelift integer value carries its width, so values are `ClInt`. Signedness is not part of a
value: it is read off the MIR type of each operand and selects the instruction.
-/

namespace Kryos

/-- How a native program can stop abnormally: a runtime panic with its message, or a trap
instruction with its user code. -/
inductive Panic
  | kryosPanic (message : String)
  | trap (code : ℕ)
  | verifier (message : String)
  deriving Repr, DecidableEq, Inhabited

namespace Native

/-- A Cranelift integer value: `width` bits. -/
structure ClInt where
  width : ℕ
  bits : BitVec width
  deriving Repr, DecidableEq

/-- An `i8` holding `0` or `1`: the result of `icmp`, and a boolean constant. -/
def ClInt.ofBool (b : Bool) : ClInt := ⟨8, if b then 1 else 0⟩

/-- `uextend` or `sextend` to width `w`; the identity at the value's own width. -/
def ClInt.extend (v : ClInt) (unsigned : Bool) (w : ℕ) : BitVec w :=
  if unsigned then v.bits.setWidth w else v.bits.signExtend w

@[simp] theorem ClInt.extend_self {w : ℕ} (v : BitVec w) (unsigned : Bool) :
    (ClInt.mk w v).extend unsigned w = v := by
  cases unsigned <;> simp [ClInt.extend]

/-! ## Runtime helpers -/

/-- Integer exponentiation `base ** exp`. Negative exponents truncate to zero, except for the two
units. -/
def kryosIpow (base exp : I64) : I64 :=
  if exp.toInt < 0 then
    if base = 1 then 1
    else if base = -1 then
      if exp.toInt % 2 = 0 then 1 else -1
    else 0
  else MachineInt.powLoop 1 base exp.toNat

theorem kryosIpow_of_nonneg {base exp : I64} (h : 0 ≤ exp.toInt) :
    kryosIpow base exp = base ^ exp.toNat := by
  rw [kryosIpow, if_neg (not_lt.mpr h), MachineInt.powLoop_eq, one_mul]

def kryosCheckDivZeroI64 (divisor : I64) : Except Panic Unit :=
  if divisor = 0 then throw (.kryosPanic "integer division by zero") else pure ()

/-- The least value of a signed operand of `bits` bits, as the guard knows it. -/
def signedMin (bits : ℕ) : ℤ :=
  match bits with
  | 8 => -2 ^ 7
  | 16 => -2 ^ 15
  | 32 => -2 ^ 31
  | _ => -2 ^ 63

/-- Guard for signed division: a zero divisor, and the minimum of the operand width divided by
`-1`. Operands arrive sign-extended to 64 bits. -/
def kryosCheckSdivI64 (dividend divisor : I64) (bits : ℕ) : Except Panic Unit :=
  if divisor = 0 then throw (.kryosPanic "integer division by zero")
  else if divisor.toInt = -1 ∧ dividend.toInt = signedMin bits then
    throw (.kryosPanic "integer division overflow")
  else pure ()

/-! ## Instruction selection -/

/-- `translate_binop_int` on operands already brought to a common width. Shift amounts are taken
modulo the width, as Cranelift's `ishl`, `ushr` and `sshr` do. -/
def translateBinopInt {w : ℕ} (op : MirBinOp) (lhs rhs : BitVec w) (isUnsigned checked : Bool) :
    Except Panic ClInt :=
  match op with
  | .add => if checked && lhs.saddOverflow rhs then throw (.trap 2) else pure ⟨w, lhs + rhs⟩
  | .sub => if checked && lhs.ssubOverflow rhs then throw (.trap 2) else pure ⟨w, lhs - rhs⟩
  | .mul => if checked && lhs.smulOverflow rhs then throw (.trap 2) else pure ⟨w, lhs * rhs⟩
  | .div => pure ⟨w, if isUnsigned then lhs.udiv rhs else lhs.sdiv rhs⟩
  | .mod => pure ⟨w, if isUnsigned then lhs.umod rhs else lhs.srem rhs⟩
  | .pow => throw (.verifier "Pow should be handled at call site")
  | .eq => pure (.ofBool (lhs == rhs))
  | .neq => pure (.ofBool (lhs != rhs))
  | .lt => pure (.ofBool (if isUnsigned then lhs.ult rhs else lhs.slt rhs))
  | .gt => pure (.ofBool (if isUnsigned then rhs.ult lhs else rhs.slt lhs))
  | .ltEq => pure (.ofBool (if isUnsigned then lhs.ule rhs else lhs.sle rhs))
  | .gtEq => pure (.ofBool (if isUnsigned then rhs.ule lhs else rhs.sle lhs))
  | .and | .bitAnd => pure ⟨w, lhs &&& rhs⟩
  | .or | .bitOr => pure ⟨w, lhs ||| rhs⟩
  | .bitXor => pure ⟨w, lhs ^^^ rhs⟩
  | .shl => pure ⟨w, lhs <<< (rhs.toNat % w)⟩
  | .shr =>
    pure ⟨w, if isUnsigned then lhs >>> (rhs.toNat % w) else lhs.sshiftRight (rhs.toNat % w)⟩

/-- The runtime check emitted before an integer division or remainder, on operands of a common
width. -/
def divisionGuard {w : ℕ} (lhs rhs : BitVec w) (isUnsigned : Bool) : Except Panic Unit :=
  if isUnsigned then kryosCheckDivZeroI64 (rhs.setWidth 64)
  else kryosCheckSdivI64 (lhs.signExtend 64) (rhs.signExtend 64) (min w 64)

/-- The operation proper, once both operands have a common width. -/
def translateBinOpAt {w : ℕ} (op : MirBinOp) (lhs rhs : BitVec w) (isUnsigned checked : Bool) :
    Except Panic ClInt :=
  if op = .pow then
    -- `kryos_ipow` is declared on `i64`; narrower operands do not pass the verifier
    if w = 64 then .ok ⟨64, kryosIpow (lhs.setWidth 64) (rhs.setWidth 64)⟩
    else .error (.verifier "kryos_ipow takes i64")
  else if op = .div ∨ op = .mod then do
    divisionGuard lhs rhs isUnsigned
    translateBinopInt op lhs rhs isUnsigned checked
  else translateBinopInt op lhs rhs isUnsigned checked

/-- The integer `BinOp` arm of `translate_rvalue`. Each operand extends by its own signedness to
the wider width; the operation is unsigned when either operand is. -/
def translateBinOp (op : MirBinOp) (lhs rhs : ClInt) (lhsUnsigned rhsUnsigned checked : Bool) :
    Except Panic ClInt :=
  let w := max lhs.width rhs.width
  translateBinOpAt op (lhs.extend lhsUnsigned w) (rhs.extend rhsUnsigned w)
    (lhsUnsigned || rhsUnsigned) checked

/-- Operands of one width are not extended. -/
theorem translateBinOp_same {w : ℕ} (op : MirBinOp) (a b : BitVec w) (lu ru checked : Bool) :
    translateBinOp op ⟨w, a⟩ ⟨w, b⟩ lu ru checked = translateBinOpAt op a b (lu || ru) checked := by
  have key : ∀ w', w' = w → translateBinOpAt op ((ClInt.mk w a).extend lu w')
      ((ClInt.mk w b).extend ru w') (lu || ru) checked =
        translateBinOpAt op a b (lu || ru) checked := by
    rintro _ rfl
    rw [ClInt.extend_self, ClInt.extend_self]
  exact key _ (max_self w)

/-- The integer `UnOp` arm of `translate_rvalue`. -/
def translateUnop (op : MirUnOp) (v : ClInt) : ClInt :=
  match op with
  | .neg => ⟨v.width, -v.bits⟩
  | .not => .ofBool (v.bits == 0)
  | .bitNot => ⟨v.width, ~~~v.bits⟩

/-- The integer-to-integer part of `translate_cast`. -/
def translateCast (v : ClInt) (srcUnsigned : Bool) (destWidth : ℕ) : ClInt :=
  if v.width < destWidth then ⟨destWidth, v.extend srcUnsigned destWidth⟩
  else ⟨destWidth, v.bits.setWidth destWidth⟩

end Native

end Kryos
