import Kryos.Mir.Cfg
import Kryos.Wasm.Inst

/-!
# Structured control flow of WebAssembly

`block`, `loop`, `if`, `br`, `br_if`, `return` and `unreachable` over plain instructions and block
bodies. Every label of the backend has the empty block type, so a label's code starts with an empty
operand stack and the enclosing stack is back when it is left.

`eval` bounds the number of iterations of each loop activation and reports the state it had reached
when the bound was hit, so nonterminating code is described by its behaviour under every bound.

## Main definitions

* `Code` — structured code
* `eval` — execution
* `brFrames` — the frames the branches of a piece of code address
-/

namespace Kryos

namespace Wasm

/-- Structured code. `body b` stands for the instructions emitted for the body of block `b`. -/
inductive Code
  | skip
  | op (o : Op)
  | body (b : BlockId)
  | seq (c d : Code)
  | block (c : Code)
  | loop (c : Code)
  | ite (c d : Code)
  | br (k : ℕ)
  | brIf (k : ℕ)
  | ret
  | unreachable
  deriving Repr, DecidableEq, Inhabited

/-- Straight-line code. -/
def Code.ops : List Op → Code
  | [] => .skip
  | o :: os => .seq (.op o) (.ops os)

/-! ## Frames -/

/-- The kinds of label. -/
inductive Frame
  | block | loop | ite
  deriving Repr, DecidableEq, Inhabited

/-- The frame each branch of `c` addresses, when `c` stands under the labels `ctx`, innermost
first. -/
def brFrames (ctx : List Frame) : Code → List (Option Frame)
  | .seq c d => brFrames ctx c ++ brFrames ctx d
  | .block c => brFrames (.block :: ctx) c
  | .loop c => brFrames (.loop :: ctx) c
  | .ite c d => brFrames (.ite :: ctx) c ++ brFrames (.ite :: ctx) d
  | .br k | .brIf k => [ctx[k]?]
  | _ => []

@[simp] theorem brFrames_ops (ctx : List Frame) (os : List Op) : brFrames ctx (.ops os) = [] := by
  induction os with
  | nil => rfl
  | cons o os ih => exact ih

/-! ## Execution -/

/-- The state of an execution, with the bodies executed so far. -/
structure State (W : Type) where
  machine : Machine
  world : W
  trace : List BlockId

/-- How a piece of code ends. -/
inductive Outcome (W : Type)
  | next (s : State W)
  | br (k : ℕ) (s : State W)
  | ret (value : Option Value) (s : State W)
  | trap (t : Trap) (s : State W)
  | stopped (s : State W)
  | outOfFuel (s : State W)

/-- The interpretation of bodies, and what they leave in the two scratch locals. -/
structure WasmBodies (n : ℕ) (W : Type) extends Bodies n W where
  scratch : BlockId → (Fin n → I64) → W → I64 × I64

variable {n : ℕ} {W : Type}

/-- The locals after a body: the MIR locals are set by the body, the scratch locals `n` and `n + 1`
may be overwritten, and nothing else is touched. -/
def WasmBodies.locals (B : WasmBodies n W) (b : BlockId) (w : W) (locals : ℕ → I64)
    (mir : Fin n → I64) : ℕ → I64 := fun i =>
  if h : i < n then mir ⟨i, h⟩
  else if i = n then (B.scratch b (fun j => locals j) w).1
  else if i = n + 1 then (B.scratch b (fun j => locals j) w).2
  else locals i

def State.withStack (s : State W) (stack : List Value) : State W :=
  { s with machine := { s.machine with stack := stack } }

/-- Leaving a label: a branch to it continues after it, with the enclosing operand stack. -/
def Outcome.exitLabel (stack : List Value) : Outcome W → Outcome W
  | .next s => .next (s.withStack stack)
  | .br 0 s => .next (s.withStack stack)
  | .br (k + 1) s => .br k s
  | o => o

/-- Iterate a loop body: a branch to the loop's label starts it again. -/
def loopIter (body : State W → Outcome W) (stack : List Value) : ℕ → State W → Outcome W
  | 0, s => .outOfFuel s
  | fuel + 1, s =>
    match body (s.withStack []) with
    | .br 0 s' => loopIter body stack fuel s'
    | o => o.exitLabel stack

/-- Execution, with at most `fuel` iterations of each loop activation. -/
def eval (B : WasmBodies n W) (isVoid : Bool) (fuel : ℕ) : Code → State W → Outcome W
  | .skip, s => .next s
  | .op o, s =>
    match o.exec s.machine with
    | .ok m => .next { s with machine := m }
    | .error t => .trap t s
  | .body b, s =>
    match B.run b (fun i => s.machine.locals i) s.world with
    | some (mir, w) =>
      .next ⟨⟨B.locals b s.world s.machine.locals mir, s.machine.stack⟩, w, s.trace ++ [b]⟩
    | none => .stopped { s with trace := s.trace ++ [b] }
  | .seq c d, s =>
    match eval B isVoid fuel c s with
    | .next s' => eval B isVoid fuel d s'
    | o => o
  | .block c, s => (eval B isVoid fuel c (s.withStack [])).exitLabel s.machine.stack
  | .loop c, s => loopIter (eval B isVoid fuel c) s.machine.stack fuel s
  | .ite c d, s =>
    match s.machine.stack with
    | .i32 v :: rest =>
      if v ≠ 0 then (eval B isVoid fuel c (s.withStack [])).exitLabel rest
      else (eval B isVoid fuel d (s.withStack [])).exitLabel rest
    | _ => .trap .invalid s
  | .br k, s => .br k s
  | .brIf k, s =>
    match s.machine.stack with
    | .i32 v :: rest => if v ≠ 0 then .br k (s.withStack rest) else .next (s.withStack rest)
    | _ => .trap .invalid s
  | .ret, s => .ret (if isVoid then none else s.machine.stack.head?) s
  | .unreachable, s => .trap .unreachable s

section Eval

variable (B : WasmBodies n W) (isVoid : Bool) (fuel : ℕ)

/-- Straight-line code runs as its instructions do. -/
theorem eval_ops {os : List Op} {s : State W} {m : Machine} (h : execOps os s.machine = .ok m) :
    eval B isVoid fuel (.ops os) s = .next { s with machine := m } := by
  induction os generalizing s with
  | nil =>
    cases h
    rfl
  | cons o os ih =>
    rw [execOps_cons] at h
    rw [Code.ops, eval, eval]
    cases ho : o.exec s.machine with
    | error t =>
      rw [ho] at h
      cases h
    | ok m' =>
      rw [ho] at h
      exact ih (s := { s with machine := m' }) h

theorem eval_seq_next {c d : Code} {s s' : State W} (h : eval B isVoid fuel c s = .next s') :
    eval B isVoid fuel (.seq c d) s = eval B isVoid fuel d s' := by
  rw [eval, h]

end Eval

end Wasm

end Kryos
