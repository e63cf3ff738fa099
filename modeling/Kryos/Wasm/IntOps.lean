import Kryos.Native.IntOps
import Kryos.Wasm.Inst

/-!
# Integer operations of the WebAssembly backend

`emit_binop`, `emit_narrow_wrap`, `emit_unop`, the negation arm of `emit_rvalue` and `emit_cast` of
`kryos-codegen-wasm/src/lib.rs`, for the eight integer types that fit a slot.

A slot is always 64 bits wide. The backend keeps in it the sign- or zero-extension of the value at
its declared type, computes with 64-bit *signed* instructions, and wraps the result of some
operators back to a narrow width. `SlotTy.slot` is the encoding; everything in `IntAgreement` is
about when it survives an operation.
-/

namespace Kryos

namespace Wasm

open Native

/-! ## Types and slots -/

/-- The scalar types whose values the backend keeps in an `i64` slot: the integers up to 64 bits,
and booleans. -/
inductive SlotTy
  | i8 | i16 | i32 | i64 | u8 | u16 | u32 | u64 | bool
  deriving Repr, DecidableEq, Inhabited

namespace SlotTy

def toMir : SlotTy → MirType
  | i8 => .i8 | i16 => .i16 | i32 => .i32 | i64 => .i64
  | u8 => .u8 | u16 => .u16 | u32 => .u32 | u64 => .u64
  | bool => .bool

/-- Width of the Cranelift value (`mir_type_to_cl`). -/
def width : SlotTy → ℕ
  | i8 | u8 | bool => 8
  | i16 | u16 => 16
  | i32 | u32 => 32
  | i64 | u64 => 64

/-- `is_unsigned_mir_type`. -/
def unsigned : SlotTy → Bool
  | u8 | u16 | u32 | u64 => true
  | _ => false

def isInt : SlotTy → Bool
  | bool => false
  | _ => true

/-- `is_narrow_int_ty`. -/
def isNarrow : SlotTy → Bool
  | i8 | u8 | i16 | u16 | i32 | u32 => true
  | _ => false

/-- What the slot of a value holds: its extension to 64 bits at its type. -/
def slot (t : SlotTy) (v : BitVec t.width) : I64 :=
  if t.unsigned then v.setWidth 64 else v.signExtend 64

/-- The least and the greatest slot contents of a type, as signed integers. -/
def minSlot (t : SlotTy) : ℤ := if t.unsigned && t.isNarrow then 0 else -2 ^ (t.width - 1)

def maxSlot (t : SlotTy) : ℤ :=
  if t.unsigned && t.isNarrow then 2 ^ t.width - 1 else 2 ^ (t.width - 1) - 1

/-- `wider_int_type`: the wider of two integer types, the left one on a tie. -/
def wider (l r : SlotTy) : SlotTy := if l.width < r.width then r else l

end SlotTy

/-! ## Emission -/

/-- The narrow type `emit_narrow_wrap` picks from the two operand types. -/
def narrowOf (lty rty : MirType) : Option MirType :=
  match lty, rty with
  | .i8, _ | _, .i8 => some .i8
  | .i16, _ | _, .i16 => some .i16
  | .i32, _ | _, .i32 => some .i32
  | .u8, _ | _, .u8 => some .u8
  | .u16, _ | _, .u16 => some .u16
  | .u32, _ | _, .u32 => some .u32
  | _, _ => none

/-- Wrap the `i64` on top of the stack back to a narrow integer's declared width. Comparisons yield
`0` or `1` and must not be masked; `And` and `Or` are the boolean operators. -/
def emitNarrowWrap (lty rty : MirType) (op : MirBinOp) : List Op :=
  match op with
  | .add | .sub | .mul | .div | .mod | .pow | .shl | .shr | .bitAnd | .bitOr | .bitXor =>
    match narrowOf lty rty with
    | some .i8 => [.i64Extend8S]
    | some .i16 => [.i64Extend16S]
    | some .i32 => [.i64Extend32S]
    | some .u8 => [.i64Const 0xFF, .i64And]
    | some .u16 => [.i64Const 0xFFFF, .i64And]
    | some .u32 => [.i64Const 0xFFFFFFFF, .i64And]
    | _ => []
  | _ => []

/-- `emit_binop`. Comparisons leave an `i32`, which is extended back to the slot width. -/
def emitBinop : MirBinOp → Option (List Op)
  | .add => some [.i64Add]
  | .sub => some [.i64Sub]
  | .mul => some [.i64Mul]
  | .div => some [.i64DivS]
  | .mod => some [.i64RemS]
  | .pow => none
  | .eq => some [.i64Eq, .i64ExtendI32U]
  | .neq => some [.i64Ne, .i64ExtendI32U]
  | .lt => some [.i64LtS, .i64ExtendI32U]
  | .gt => some [.i64GtS, .i64ExtendI32U]
  | .ltEq => some [.i64LeS, .i64ExtendI32U]
  | .gtEq => some [.i64GeS, .i64ExtendI32U]
  | .and => some [.i64And]
  | .or => some [.i64Or]
  | .bitAnd => some [.i64And]
  | .bitOr => some [.i64Or]
  | .bitXor => some [.i64Xor]
  | .shl => some [.i64Shl]
  | .shr => some [.i64ShrS]

/-- The integer `BinOp` arm of `emit_rvalue`, after both operands have been pushed. -/
def emitIntBinop (lty rty : MirType) (op : MirBinOp) : Option (List Op) :=
  (emitBinop op).map (· ++ emitNarrowWrap lty rty op)

/-- The integer `UnOp` arm of `emit_rvalue`, after the operand has been pushed. Negation is
`0 - x` through the scratch local. -/
def emitIntUnop (scratch : ℕ) : MirUnOp → List Op
  | .neg => [.localSet scratch, .i64Const 0, .localGet scratch, .i64Sub]
  | .not => [.i64Eqz, .i64ExtendI32U]
  | .bitNot => [.i64Const (-1), .i64Xor]

/-- The integer destinations of `emit_cast`. -/
def emitCast : MirType → Option (List Op)
  | .i64 | .u64 | .bool => some []
  | .i32 => some [.i32WrapI64, .i64ExtendI32S]
  | .u32 | .char => some [.i64Const 0xFFFFFFFF, .i64And]
  | .u8 => some [.i64Const 0xFF, .i64And]
  | .u16 => some [.i64Const 0xFFFF, .i64And]
  | .i8 => some [.i64Const 56, .i64Shl, .i64Const 56, .i64ShrS]
  | .i16 => some [.i64Const 48, .i64Shl, .i64Const 48, .i64ShrS]
  | _ => none

/-! ## What the emitted code leaves -/

/-- The value left by `ops` started on operands `stack` (top first), or the trap. -/
def leaves (ops : List Op) (locals : ℕ → I64) (stack : List I64) : Except Trap I64 :=
  match execOps ops ⟨locals, stack.map .i64⟩ with
  | .ok ⟨_, [.i64 v]⟩ => .ok v
  | .ok _ => .error .invalid
  | .error e => .error e

/-- The 64-bit operation `emit_binop` selects for an arithmetic operator. -/
def rawBinop (op : MirBinOp) (a b : I64) : Except Trap I64 :=
  match op with
  | .add => .ok (a + b)
  | .sub => .ok (a - b)
  | .mul => .ok (a * b)
  | .div => divS a b
  | .mod => remS a b
  | .bitAnd | .and => .ok (a &&& b)
  | .bitOr | .or => .ok (a ||| b)
  | .bitXor => .ok (a ^^^ b)
  | .shl => .ok (a <<< (b.toNat % 64))
  | .shr => .ok (a.sshiftRight (b.toNat % 64))
  | .eq => .ok (if a = b then 1 else 0)
  | .neq => .ok (if a = b then 0 else 1)
  | .lt => .ok (if a.slt b then 1 else 0)
  | .gt => .ok (if b.slt a then 1 else 0)
  | .ltEq => .ok (if a.sle b then 1 else 0)
  | .gtEq => .ok (if b.sle a then 1 else 0)
  | .pow => .error .invalid

/-- An operator `emit_narrow_wrap` applies to. -/
def isWrapped : MirBinOp → Bool
  | .add | .sub | .mul | .div | .mod | .pow | .shl | .shr | .bitAnd | .bitOr | .bitXor => true
  | _ => false

/-- Reduce to a type's width and extend back. -/
def SlotTy.wrap (t : SlotTy) (x : I64) : I64 := t.slot (x.setWidth t.width)

/-- The type whose width `emit_narrow_wrap` restores. -/
def narrowPick (l r : SlotTy) : Option SlotTy :=
  match l, r with
  | .i8, _ | _, .i8 => some .i8
  | .i16, _ | _, .i16 => some .i16
  | .i32, _ | _, .i32 => some .i32
  | .u8, _ | _, .u8 => some .u8
  | .u16, _ | _, .u16 => some .u16
  | .u32, _ | _, .u32 => some .u32
  | _, _ => none

/-- The wrapping `emit_narrow_wrap` performs, as a function. -/
def narrowWrap (op : MirBinOp) (l r : SlotTy) (x : I64) : I64 :=
  if isWrapped op then ((narrowPick l r).map fun t => t.wrap x).getD x else x

theorem and_mask (x : I64) {k : ℕ} (hk : k ≤ 64) :
    x &&& BitVec.ofNat 64 (2 ^ k - 1) = (x.setWidth k).setWidth 64 := by
  have hle : 2 ^ k ≤ 2 ^ 64 := Nat.pow_le_pow_right (by decide) hk
  have hpos : 0 < 2 ^ k := Nat.two_pow_pos k
  apply BitVec.eq_of_toNat_eq
  rw [BitVec.toNat_and, BitVec.toNat_ofNat, Nat.mod_eq_of_lt (by omega),
    Nat.and_two_pow_sub_one_eq_mod, BitVec.toNat_setWidth, BitVec.toNat_setWidth,
    Nat.mod_eq_of_lt ((Nat.mod_lt _ hpos).trans_le hle)]

/-! ### The emitted sequences compute these functions -/

theorem narrowOf_toMir (l r : SlotTy) :
    narrowOf l.toMir r.toMir = (narrowPick l r).map SlotTy.toMir := by
  cases l <;> cases r <;> rfl

/-- Only narrow types are picked. -/
theorem isNarrow_of_narrowPick {l r t : SlotTy} (h : narrowPick l r = some t) : t.isNarrow := by
  cases l <;> cases r <;> cases h <;> rfl

theorem execOps_emitNarrowWrap (op : MirBinOp) (l r : SlotTy) (locals : ℕ → I64) (v : I64) :
    execOps (emitNarrowWrap l.toMir r.toMir op) ⟨locals, [.i64 v]⟩ =
      .ok ⟨locals, [.i64 (narrowWrap op l r v)]⟩ := by
  by_cases hw : isWrapped op = true
  · have hemit : emitNarrowWrap l.toMir r.toMir op = emitNarrowWrap l.toMir r.toMir .add := by
      cases op <;> first | rfl | cases hw
    rw [hemit, narrowWrap, if_pos hw]
    simp only [emitNarrowWrap, narrowOf_toMir]
    rcases hp : narrowPick l r with _ | t
    · rfl
    · have hn := isNarrow_of_narrowPick hp
      have hmask := fun {k} (hk : k ≤ 64) => congrArg (fun x => Except.ok (ε := Trap) (Machine.mk locals [.i64 x]))
        (and_mask v hk)
      cases t with
      | u8 => exact hmask (k := 8) (by decide)
      | u16 => exact hmask (k := 16) (by decide)
      | u32 => exact hmask (k := 32) (by decide)
      | i8 | i16 | i32 => rfl
      | i64 | u64 | bool => exact absurd hn (by decide)
  · have hemit : emitNarrowWrap l.toMir r.toMir op = [] := by
      cases op <;> first | rfl | exact absurd rfl hw
    rw [hemit, narrowWrap, if_neg hw]
    rfl

theorem setWidth_ofBool (c : Bool) : (ofBool c).setWidth 64 = if c then (1 : I64) else 0 := by
  cases c <;> rfl

theorem execOps_emitBinop {op : MirBinOp} {ops : List Op} (h : emitBinop op = some ops)
    (locals : ℕ → I64) (a b : I64) :
    execOps ops ⟨locals, [.i64 b, .i64 a]⟩ =
      (rawBinop op a b).map fun v => ⟨locals, [.i64 v]⟩ := by
  cases op <;> cases h
  case div =>
    simp only [rawBinop, execOps_cons, Op.exec, binary]
    cases divS a b <;> rfl
  case mod =>
    simp only [rawBinop, execOps_cons, Op.exec, binary]
    cases remS a b <;> rfl
  all_goals first
    | rfl
    | simp [rawBinop, execOps_cons, Op.exec, binary, unary32, Except.map, setWidth_ofBool,
        bind, Except.bind]

section

variable {l r : SlotTy} {op : MirBinOp} {ops : List Op}
  (h : emitIntBinop l.toMir r.toMir op = some ops) (locals : ℕ → I64) (a b : I64)

include h locals a b

theorem execOps_emitIntBinop :
    execOps ops ⟨locals, [.i64 b, .i64 a]⟩ =
      ((rawBinop op a b).map (narrowWrap op l r)).map fun v => ⟨locals, [.i64 v]⟩ := by
  obtain ⟨raw, hraw, rfl⟩ := Option.map_eq_some_iff.mp h
  rw [execOps_append, execOps_emitBinop hraw]
  cases rawBinop op a b with
  | error e => rfl
  | ok v => exact execOps_emitNarrowWrap op l r locals v

/-- What the code emitted for an integer `BinOp` leaves. -/
theorem leaves_emitIntBinop :
    leaves ops locals [b, a] = (rawBinop op a b).map (narrowWrap op l r) := by
  simp only [leaves, List.map_cons, List.map_nil, execOps_emitIntBinop h]
  cases rawBinop op a b <;> rfl

end

/-- The slot `emit_unop` and the negation arm leave. -/
def slotUnop (op : MirUnOp) (a : I64) : I64 :=
  match op with
  | .neg => 0 - a
  | .not => if a = 0 then 1 else 0
  | .bitNot => a ^^^ (-1)

/-- The locals after a unary operator: negation goes through the scratch local. -/
def unopLocals (scratch : ℕ) (op : MirUnOp) (locals : ℕ → I64) (a : I64) : ℕ → I64 :=
  match op with
  | .neg => Function.update locals scratch a
  | _ => locals

theorem execOps_emitIntUnop (scratch : ℕ) (op : MirUnOp) (locals : ℕ → I64) (a : I64) :
    execOps (emitIntUnop scratch op) ⟨locals, [.i64 a]⟩ =
      .ok ⟨unopLocals scratch op locals a, [.i64 (slotUnop op a)]⟩ := by
  cases op with
  | neg =>
    simp [emitIntUnop, execOps_cons, Op.exec, binary, unopLocals, slotUnop, bind, Except.bind,
      Except.map]
  | not =>
    simp [emitIntUnop, execOps_cons, Op.exec, unary, unary32, unopLocals, slotUnop, bind,
      Except.bind, setWidth_ofBool]
  | bitNot => rfl

theorem leaves_emitIntUnop (scratch : ℕ) (op : MirUnOp) (locals : ℕ → I64) (a : I64) :
    leaves (emitIntUnop scratch op) locals [a] = .ok (slotUnop op a) := by
  simp only [leaves, List.map_cons, List.map_nil, execOps_emitIntUnop]

/-- Shifting a byte or half-word to the top and back sign-extends it. -/
theorem sshiftRight_shiftLeft (x : I64) {n k : ℕ} (h : n = 56 ∧ k = 8 ∨ n = 48 ∧ k = 16) :
    (x <<< n).sshiftRight n = (x.setWidth k).signExtend 64 := by
  apply BitVec.eq_of_toInt_eq
  rw [BitVec.toInt_sshiftRight, BitVec.toInt_signExtend, BitVec.toInt_setWidth,
    BitVec.toInt_shiftLeft, Nat.shiftLeft_eq, Int.shiftRight_eq_div_pow]
  have := x.isLt
  obtain ⟨rfl, rfl⟩ | ⟨rfl, rfl⟩ := h <;> simp only [Int.bmod_def] <;> norm_num <;> omega

theorem wrap_i8 (x : I64) : SlotTy.i8.wrap x = (x <<< 56).sshiftRight 56 :=
  (sshiftRight_shiftLeft x (n := 56) (k := 8) (.inl ⟨rfl, rfl⟩)).symm

theorem wrap_i16 (x : I64) : SlotTy.i16.wrap x = (x <<< 48).sshiftRight 48 :=
  (sshiftRight_shiftLeft x (n := 48) (k := 16) (.inr ⟨rfl, rfl⟩)).symm

theorem execOps_emitCast {t : SlotTy} (ht : t.isInt) {ops : List Op}
    (h : emitCast t.toMir = some ops) (locals : ℕ → I64) (a : I64) :
    execOps ops ⟨locals, [.i64 a]⟩ = .ok ⟨locals, [.i64 (t.wrap a)]⟩ := by
  have hok := fun {x y : I64} (hxy : x = y) =>
    congrArg (fun x => Except.ok (ε := Trap) (Machine.mk locals [.i64 x])) hxy
  cases t with
  | i8 => cases h; rw [wrap_i8]; rfl
  | i16 => cases h; rw [wrap_i16]; rfl
  | i32 => cases h; rfl
  | i64 => cases h; exact hok (BitVec.signExtend_eq a).symm
  | u8 => cases h; exact hok (and_mask a (k := 8) (by decide))
  | u16 => cases h; exact hok (and_mask a (k := 16) (by decide))
  | u32 => cases h; exact hok (and_mask a (k := 32) (by decide))
  | u64 => cases h; exact hok (BitVec.setWidth_eq a).symm
  | bool => exact absurd ht (by decide)

theorem leaves_emitCast {t : SlotTy} (ht : t.isInt) {ops : List Op}
    (h : emitCast t.toMir = some ops) (locals : ℕ → I64) (a : I64) :
    leaves ops locals [a] = .ok (t.wrap a) := by
  simp only [leaves, List.map_cons, List.map_nil, execOps_emitCast ht h]

end Wasm

end Kryos
