import Kryos.Mir.Ir

/-!
# The WebAssembly instructions the backend emits

Plain (non-control) instructions on an operand stack, with the behaviour the WebAssembly
specification gives them: 32- and 64-bit wrapping arithmetic, shift amounts modulo the width,
comparisons that leave an `i32`, and division that traps.

Every integer MIR local is a 64-bit slot, so the local file holds `I64`s only.
-/

namespace Kryos

namespace Wasm

/-- Why a WebAssembly execution stops abnormally. `invalid` is a stack that does not have the shape
the instruction needs; it cannot happen in a validated module. -/
inductive Trap
  | divideByZero
  | integerOverflow
  | unreachable
  | invalid
  deriving Repr, DecidableEq, Inhabited

/-- An operand on the stack. -/
inductive Value
  | i32 (v : BitVec 32)
  | i64 (v : I64)
  deriving Repr, DecidableEq, Inhabited

/-- Plain instructions. -/
inductive Op
  | i32Const (v : BitVec 32)
  | i64Const (v : I64)
  | localGet (i : ℕ)
  | localSet (i : ℕ)
  | localTee (i : ℕ)
  | drop
  | select
  | i64Add | i64Sub | i64Mul | i64DivS | i64RemS
  | i64And | i64Or | i64Xor | i64Shl | i64ShrS | i64ShrU
  | i64Eq | i64Ne | i64LtS | i64GtS | i64LeS | i64GeS | i64Eqz
  | i32Eqz | i32Or
  | i32WrapI64 | i64ExtendI32S | i64ExtendI32U
  | i64Extend8S | i64Extend16S | i64Extend32S
  deriving Repr, DecidableEq, Inhabited

/-- The local slots of an activation, and its operand stack with the top first. -/
structure Machine where
  locals : ℕ → I64
  stack : List Value

/-- The `i32` a comparison leaves. -/
def ofBool (b : Bool) : BitVec 32 := if b then 1 else 0

/-- Signed division: traps on a zero divisor and on the one unrepresentable quotient. -/
def divS (a b : I64) : Except Trap I64 :=
  if b = 0 then .error .divideByZero
  else if a = BitVec.intMin 64 ∧ b = -1 then .error .integerOverflow
  else .ok (a.sdiv b)

/-- Signed remainder: traps on a zero divisor only. -/
def remS (a b : I64) : Except Trap I64 :=
  if b = 0 then .error .divideByZero else .ok (a.srem b)

/-- A binary instruction on two `i64`s. -/
def binary (f : I64 → I64 → Except Trap Value) (m : Machine) : Except Trap Machine :=
  match m.stack with
  | .i64 b :: .i64 a :: rest => (f a b).map fun v => { m with stack := v :: rest }
  | _ => .error .invalid

/-- A unary instruction on an `i64`. -/
def unary (f : I64 → Value) (m : Machine) : Except Trap Machine :=
  match m.stack with
  | .i64 a :: rest => .ok { m with stack := f a :: rest }
  | _ => .error .invalid

/-- A unary instruction on an `i32`. -/
def unary32 (f : BitVec 32 → Value) (m : Machine) : Except Trap Machine :=
  match m.stack with
  | .i32 a :: rest => .ok { m with stack := f a :: rest }
  | _ => .error .invalid

/-- Run one plain instruction. -/
def Op.exec (op : Op) (m : Machine) : Except Trap Machine :=
  match op with
  | .i32Const v => .ok { m with stack := .i32 v :: m.stack }
  | .i64Const v => .ok { m with stack := .i64 v :: m.stack }
  | .localGet i => .ok { m with stack := .i64 (m.locals i) :: m.stack }
  | .localSet i =>
    match m.stack with
    | .i64 v :: rest => .ok ⟨Function.update m.locals i v, rest⟩
    | _ => .error .invalid
  | .localTee i =>
    match m.stack with
    | .i64 v :: rest => .ok ⟨Function.update m.locals i v, .i64 v :: rest⟩
    | _ => .error .invalid
  | .drop =>
    match m.stack with
    | _ :: rest => .ok { m with stack := rest }
    | _ => .error .invalid
  | .select =>
    match m.stack with
    | .i32 c :: b :: a :: rest => .ok { m with stack := (if c ≠ 0 then a else b) :: rest }
    | _ => .error .invalid
  | .i64Add => binary (fun a b => .ok (.i64 (a + b))) m
  | .i64Sub => binary (fun a b => .ok (.i64 (a - b))) m
  | .i64Mul => binary (fun a b => .ok (.i64 (a * b))) m
  | .i64DivS => binary (fun a b => (divS a b).map .i64) m
  | .i64RemS => binary (fun a b => (remS a b).map .i64) m
  | .i64And => binary (fun a b => .ok (.i64 (a &&& b))) m
  | .i64Or => binary (fun a b => .ok (.i64 (a ||| b))) m
  | .i64Xor => binary (fun a b => .ok (.i64 (a ^^^ b))) m
  | .i64Shl => binary (fun a b => .ok (.i64 (a <<< (b.toNat % 64)))) m
  | .i64ShrS => binary (fun a b => .ok (.i64 (a.sshiftRight (b.toNat % 64)))) m
  | .i64ShrU => binary (fun a b => .ok (.i64 (a >>> (b.toNat % 64)))) m
  | .i64Eq => binary (fun a b => .ok (.i32 (ofBool (a == b)))) m
  | .i64Ne => binary (fun a b => .ok (.i32 (ofBool (a != b)))) m
  | .i64LtS => binary (fun a b => .ok (.i32 (ofBool (a.slt b)))) m
  | .i64GtS => binary (fun a b => .ok (.i32 (ofBool (b.slt a)))) m
  | .i64LeS => binary (fun a b => .ok (.i32 (ofBool (a.sle b)))) m
  | .i64GeS => binary (fun a b => .ok (.i32 (ofBool (b.sle a)))) m
  | .i64Eqz => unary (fun a => .i32 (ofBool (a == 0))) m
  | .i32Eqz => unary32 (fun a => .i32 (ofBool (a == 0))) m
  | .i32Or =>
    match m.stack with
    | .i32 b :: .i32 a :: rest => .ok { m with stack := .i32 (a ||| b) :: rest }
    | _ => .error .invalid
  | .i32WrapI64 => unary (fun a => .i32 (a.setWidth 32)) m
  | .i64ExtendI32S => unary32 (fun a => .i64 (a.signExtend 64)) m
  | .i64ExtendI32U => unary32 (fun a => .i64 (a.setWidth 64)) m
  | .i64Extend8S => unary (fun a => .i64 ((a.setWidth 8).signExtend 64)) m
  | .i64Extend16S => unary (fun a => .i64 ((a.setWidth 16).signExtend 64)) m
  | .i64Extend32S => unary (fun a => .i64 ((a.setWidth 32).signExtend 64)) m

/-! The instructions the control-flow translators use. -/

section ControlOps

variable (locals : ℕ → I64) (stack : List Value)

@[simp] theorem exec_i32Const (v : BitVec 32) :
    (Op.i32Const v).exec ⟨locals, stack⟩ = .ok ⟨locals, .i32 v :: stack⟩ := rfl

@[simp] theorem exec_i64Const (v : I64) :
    (Op.i64Const v).exec ⟨locals, stack⟩ = .ok ⟨locals, .i64 v :: stack⟩ := rfl

@[simp] theorem exec_localGet (i : ℕ) :
    (Op.localGet i).exec ⟨locals, stack⟩ = .ok ⟨locals, .i64 (locals i) :: stack⟩ := rfl

@[simp] theorem exec_localSet (i : ℕ) (v : I64) :
    (Op.localSet i).exec ⟨locals, .i64 v :: stack⟩ = .ok ⟨Function.update locals i v, stack⟩ := rfl

@[simp] theorem exec_select (a b : I64) (c : BitVec 32) :
    Op.select.exec ⟨locals, .i32 c :: .i64 b :: .i64 a :: stack⟩ =
      .ok ⟨locals, .i64 (if c = 0 then b else a) :: stack⟩ := by
  by_cases h : c = 0
  · rw [if_pos h, h]
    rfl
  · simp only [Op.exec, ne_eq, h, not_false_eq_true, if_true, if_false]

@[simp] theorem exec_i64Eq (a b : I64) :
    Op.i64Eq.exec ⟨locals, .i64 b :: .i64 a :: stack⟩ =
      .ok ⟨locals, .i32 (ofBool (a == b)) :: stack⟩ := rfl

@[simp] theorem exec_i32WrapI64 (a : I64) :
    Op.i32WrapI64.exec ⟨locals, .i64 a :: stack⟩ = .ok ⟨locals, .i32 (a.setWidth 32) :: stack⟩ :=
  rfl

@[simp] theorem exec_i32Eqz (a : BitVec 32) :
    Op.i32Eqz.exec ⟨locals, .i32 a :: stack⟩ = .ok ⟨locals, .i32 (ofBool (a == 0)) :: stack⟩ := rfl

end ControlOps

@[simp] theorem ofBool_eq_zero (b : Bool) : ofBool b = 0#32 ↔ b = false := by
  cases b <;> decide

/-- Run a sequence of plain instructions. -/
def execOps : List Op → Machine → Except Trap Machine
  | [], m => .ok m
  | op :: ops, m => op.exec m >>= execOps ops

@[simp] theorem execOps_nil (m : Machine) : execOps [] m = .ok m := rfl

theorem execOps_cons (op : Op) (ops : List Op) (m : Machine) :
    execOps (op :: ops) m = op.exec m >>= execOps ops := rfl

theorem execOps_cons_ok {op : Op} {m m' : Machine} (h : op.exec m = .ok m') (ops : List Op) :
    execOps (op :: ops) m = execOps ops m' := by
  rw [execOps_cons, h]
  rfl

theorem execOps_append (xs ys : List Op) (m : Machine) :
    execOps (xs ++ ys) m = execOps xs m >>= execOps ys := by
  induction xs generalizing m with
  | nil => rfl
  | cons op ops ih =>
    simp only [List.cons_append, execOps_cons]
    cases op.exec m with
    | error e => rfl
    | ok m' => exact ih m'

end Wasm

end Kryos
