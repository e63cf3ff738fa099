import Mathlib
import Kryos.Wasm.Control

/-!
# The dispatch relooper

`emit_relooper` and `emit_relooper_terminator` of `kryos-codegen-wasm/src/lib.rs`: a function body
as one loop around a nest of `if`s over a program counter, which holds the position of the next
block in `func.blocks`.

The loop follows the control-flow graph as long as every `Branch` condition is tested in its low
32 bits alone and every `Switch` value selects one target among its matching cases: conditions go
through `i32.wrap_i64`, and the fold of `select`s lets the *last* matching case win.

## Main results

* `eval_nest` — dispatch: the nest runs the block the program counter names
* `relooper_preserves_control_flow` — the simulation
-/

namespace Kryos

namespace Wasm

/-! ## Emission -/

/-- `cg_scratch_local`, `cg_scratch_local2` and `cg_pc_local`: the three locals after the MIR
locals. -/
def cgScratchLocal (f : MirFunction) : ℕ := f.locals.length

def cgScratchLocal2 (f : MirFunction) : ℕ := f.locals.length + 1

def cgPcLocal (f : MirFunction) : ℕ := f.locals.length + 2

/-- `block_index`: the position of a block. -/
def blockIndex (f : MirFunction) (id : BlockId) : Option ℕ := f.blocks.findIdx? fun b => b.id == id

def emitOperand (intern : String → I64) : Operand → Op
  | .local id => .localGet id
  | .constant c => .i64Const (c.slot intern)

/-- `i as i64`. -/
def indexConst (i : ℕ) : Op := .i64Const (BitVec.ofNat 64 i)

/-- `pc = (value == case) ? case_target : pc`, folded over the cases. -/
def emitSwitchCases (f : MirFunction) (pc : ℕ) (value : Op) :
    List (I64 × BlockId) → Option (List Op)
  | [] => some []
  | (case, target) :: rest => do
    let ti ← blockIndex f target
    let ops ← emitSwitchCases f pc value rest
    some ([indexConst ti, .localGet pc, value, .i64Const case, .i64Eq, .select, .localSet pc] ++ ops)

/-- Set the program counter to the successor and continue the loop, or leave. -/
def emitRelooperTerminator (intern : String → I64) (f : MirFunction) (blockI : ℕ) :
    Terminator → Option Code
  | .goto t => do
    let idx ← blockIndex f t
    some (.seq (.ops [indexConst idx, .localSet (cgPcLocal f)]) (.br (blockI + 1)))
  | .branch cond t e => do
    let ti ← blockIndex f t
    let ei ← blockIndex f e
    some (.seq (.ops [indexConst ti, indexConst ei, emitOperand intern cond, .i32WrapI64, .select,
      .localSet (cgPcLocal f)]) (.br (blockI + 1)))
  | .ret (some op) => some (.seq (.ops [emitOperand intern op]) .ret)
  | .ret none => some (.seq (.ops (if f.isVoid then [] else [.i64Const 0])) .ret)
  | .switch value targets default => do
    let di ← blockIndex f default
    let ops ← emitSwitchCases f (cgPcLocal f) (emitOperand intern value) targets
    some (.seq (.ops ([indexConst di, .localSet (cgPcLocal f)] ++ ops)) (.br (blockI + 1)))
  | .unreachable => some .unreachable

/-- The code of one block: its body, then its terminator. -/
def emitRelooperBlock (intern : String → I64) (f : MirFunction) (i : ℕ) (b : BasicBlock) :
    Option Code := do
  let term ← emitRelooperTerminator intern f i b.terminator
  some (.seq (.body b.id) term)

/-- The test of the program counter against position `i`. -/
def emitTest (f : MirFunction) (i : ℕ) : List Op := [.localGet (cgPcLocal f), indexConst i, .i64Eq]

/-- The nest of `if`s over the blocks from position `i` on. -/
def emitNest (intern : String → I64) (f : MirFunction) : ℕ → List BasicBlock → Option Code
  | _, [] => some .unreachable
  | i, b :: bs => do
    let code ← emitRelooperBlock intern f i b
    let rest ← emitNest intern f (i + 1) bs
    some (.seq (.ops (emitTest f i)) (.ite code rest))

/-- `emit_relooper`. -/
def emitRelooper (intern : String → I64) (f : MirFunction) : Option Code := do
  let nest ← emitNest intern f 0 f.blocks
  some (.seq (.ops [.i64Const 0, .localSet (cgPcLocal f)]) (.seq (.loop nest) .unreachable))

/-! ## What a terminator does -/

/-- The fold of `select`s keeps the last matching case. -/
def lastTarget (v : I64) (targets : List (I64 × BlockId)) (default : BlockId) : BlockId :=
  targets.foldl (fun acc ct => if v = ct.1 then ct.2 else acc) default

/-- The block the emitted code continues with. -/
def relooperNext (value : Operand → I64) : Terminator → Option BlockId
  | .ret _ | .unreachable => none
  | .goto t => some t
  | .branch cond t e => some (if (value cond).setWidth 32 ≠ 0 then t else e)
  | .switch v targets default => some (lastTarget (value v) targets default)

variable {idx : ℕ}

section Terminators

variable {n : ℕ} {W : Type} {f : MirFunction} (B : WasmBodies n W) (fuel : ℕ)

/-- The value of an operand, read off the WebAssembly locals. -/
def slotValue (B : WasmBodies n W) (locals : ℕ → I64) : Operand → I64 :=
  B.value fun i => locals i

theorem exec_emitOperand {op : Operand} (hop : ∀ i ∈ op.locals, i < n) (locals : ℕ → I64)
    (stack : List Value) : (emitOperand B.intern op).exec ⟨locals, stack⟩ =
      .ok ⟨locals, .i64 (slotValue B locals op) :: stack⟩ := by
  cases op with
  | «local» id =>
    have hid : id < n := hop id (by simp [Operand.locals])
    simp [emitOperand, Op.exec, slotValue, Bodies.value, hid]
  | constant c => rfl

/-- The program counter is not a MIR local, so setting it changes no operand. -/
theorem slotValue_update (op : Operand) {pc : ℕ} (hpc : n ≤ pc) (locals : ℕ → I64) (v : I64) :
    slotValue B (Function.update locals pc v) op = slotValue B locals op := by
  have h : (fun i : Fin n => Function.update locals pc v i) = fun i : Fin n => locals i := by
    funext i
    exact Function.update_of_ne (by omega) _ _
  simp only [slotValue, h]

/-- One `select` of the fold. -/
theorem execOps_switchCase {value : Operand} (hval : ∀ i ∈ value.locals, i < n) {pc : ℕ}
    (hpc : n ≤ pc) (ti : ℕ) (case : I64) (locals : ℕ → I64) (v : I64) :
    execOps [indexConst ti, .localGet pc, emitOperand B.intern value, .i64Const case, .i64Eq,
      .select, .localSet pc] ⟨Function.update locals pc v, []⟩ =
      .ok ⟨Function.update locals pc
        (if slotValue B locals value = case then BitVec.ofNat 64 ti else v), []⟩ := by
  have hv := slotValue_update B value hpc locals v
  rw [indexConst, execOps_cons_ok (exec_i64Const _ _ _), execOps_cons_ok (exec_localGet _ _ _),
    execOps_cons_ok (exec_emitOperand B hval _ _), execOps_cons_ok (exec_i64Const _ _ _),
    execOps_cons_ok (exec_i64Eq _ _ _ _), execOps_cons_ok (exec_select _ _ _ _ _),
    execOps_cons_ok (exec_localSet _ _ _ _), execOps_nil, hv, Function.update_self,
    Function.update_idem]
  by_cases h : slotValue B locals value = case <;> simp [h]

/-- The fold over the cases, with the program counter at the position of `acc`. -/
theorem execOps_emitSwitchCases {value : Operand} (hval : ∀ i ∈ value.locals, i < n)
    (hn : f.locals.length = n) {targets : List (I64 × BlockId)} {ops : List Op}
    (hops : emitSwitchCases f (cgPcLocal f) (emitOperand B.intern value) targets = some ops)
    (locals : ℕ → I64) {acc : BlockId} (hacc : blockIndex f acc = some idx) :
    ∃ idx', blockIndex f (lastTarget (slotValue B locals value) targets acc) = some idx' ∧
      execOps ops ⟨Function.update locals (cgPcLocal f) (BitVec.ofNat 64 idx), []⟩ =
        .ok ⟨Function.update locals (cgPcLocal f) (BitVec.ofNat 64 idx'), []⟩ := by
  have hpc : n ≤ cgPcLocal f := by rw [cgPcLocal, hn]; omega
  induction targets generalizing ops acc idx with
  | nil =>
    cases hops
    exact ⟨idx, hacc, rfl⟩
  | cons ct rest ih =>
    obtain ⟨case, target⟩ := ct
    simp only [emitSwitchCases, Option.bind_eq_bind, Option.bind_eq_some_iff, Option.some.injEq]
      at hops
    obtain ⟨ti, hti, rops, hrops, rfl⟩ := hops
    -- the `select` keeps the target of this case or the position found so far
    have hsel : ∃ j, blockIndex f (if slotValue B locals value = case then target else acc) =
        some j ∧ (if slotValue B locals value = case then BitVec.ofNat 64 ti
          else BitVec.ofNat 64 idx) = BitVec.ofNat 64 j := by
      split
      · exact ⟨ti, hti, rfl⟩
      · exact ⟨idx, hacc, rfl⟩
    obtain ⟨j, hj, hjv⟩ := hsel
    obtain ⟨idx', hidx', hexec⟩ := ih hrops hj
    refine ⟨idx', hidx', ?_⟩
    rw [← hexec, execOps_append, execOps_switchCase B hval hpc, hjv]
    rfl

/-- The state with the program counter set. -/
def withPc (f : MirFunction) (s : State W) (idx : ℕ) : State W :=
  { s with machine := ⟨Function.update s.machine.locals (cgPcLocal f) (BitVec.ofNat 64 idx), []⟩ }

/-- A terminator with a successor sets the program counter to it and branches to the loop. -/
theorem eval_terminator_next (hn : f.locals.length = n) {i : ℕ} {term : Terminator} {code : Code}
    (hcode : emitRelooperTerminator B.intern f i term = some code)
    (hlocals : ∀ j ∈ term.locals, j < n) {s : State W} (hstack : s.machine.stack = [])
    {t : BlockId} (ht : relooperNext (slotValue B s.machine.locals) term = some t) :
    ∃ idx, blockIndex f t = some idx ∧
      eval B f.isVoid fuel code s = .br (i + 1) (withPc f s idx) := by
  obtain ⟨⟨locals, stack⟩, world, trace⟩ := s
  obtain rfl : stack = [] := hstack
  cases term with
  | ret op | unreachable => cases ht
  | goto target =>
    cases ht
    simp only [emitRelooperTerminator, Option.bind_eq_bind, Option.bind_eq_some_iff,
      Option.some.injEq] at hcode
    obtain ⟨idx, hidx, rfl⟩ := hcode
    refine ⟨idx, hidx, ?_⟩
    have hops : execOps [indexConst idx, .localSet (cgPcLocal f)] ⟨locals, []⟩ =
        .ok ⟨Function.update locals (cgPcLocal f) (BitVec.ofNat 64 idx), []⟩ := rfl
    rw [eval_seq_next _ _ _ (eval_ops _ _ _ hops)]
    rfl
  | branch cond th el =>
    simp only [emitRelooperTerminator, Option.bind_eq_bind, Option.bind_eq_some_iff,
      Option.some.injEq] at hcode
    obtain ⟨ti, hti, ei, hei, rfl⟩ := hcode
    have hops : execOps [indexConst ti, indexConst ei, emitOperand B.intern cond, .i32WrapI64,
        .select, .localSet (cgPcLocal f)] ⟨locals, []⟩ =
        .ok ⟨Function.update locals (cgPcLocal f)
          (if (slotValue B locals cond).setWidth 32 = 0 then BitVec.ofNat 64 ei
            else BitVec.ofNat 64 ti), []⟩ := by
      rw [indexConst, indexConst, execOps_cons_ok (exec_i64Const _ _ _),
        execOps_cons_ok (exec_i64Const _ _ _), execOps_cons_ok (exec_emitOperand B hlocals _ _),
        execOps_cons_ok (exec_i32WrapI64 _ _ _), execOps_cons_ok (exec_select _ _ _ _ _),
        execOps_cons_ok (exec_localSet _ _ _ _), execOps_nil]
    rw [eval_seq_next _ _ _ (eval_ops _ _ _ hops)]
    simp only [relooperNext, Option.some.injEq] at ht
    by_cases hc : (slotValue B locals cond).setWidth 32 = 0
    · simp only [hc, ne_eq, not_true_eq_false, if_false] at ht
      exact ⟨ei, ht ▸ hei, by rw [if_pos hc]; rfl⟩
    · simp only [hc, ne_eq, not_false_eq_true, if_true] at ht
      exact ⟨ti, ht ▸ hti, by rw [if_neg hc]; rfl⟩
  | switch value targets default =>
    simp only [emitRelooperTerminator, Option.bind_eq_bind, Option.bind_eq_some_iff,
      Option.some.injEq] at hcode
    obtain ⟨di, hdi, ops, hops, rfl⟩ := hcode
    obtain ⟨idx, hidx, hexec⟩ := execOps_emitSwitchCases B hlocals hn hops locals hdi
    simp only [relooperNext, Option.some.injEq] at ht
    refine ⟨idx, ht ▸ hidx, ?_⟩
    have hall : execOps ([indexConst di, .localSet (cgPcLocal f)] ++ ops) ⟨locals, []⟩ =
        .ok ⟨Function.update locals (cgPcLocal f) (BitVec.ofNat 64 idx), []⟩ := hexec
    rw [eval_seq_next _ _ _ (eval_ops _ _ _ hall)]
    rfl

/-- The outcome of a terminator without successors. -/
def leaveOutcome (isVoid : Bool) (value : Operand → I64) (s : State W) :
    Terminator → Outcome W
  | .ret op => .ret ((returnedValue isVoid value op).map .i64) s
  | _ => .trap .unreachable s

/-- A terminator without successors leaves the function; a bare `return` of a function with a result
is excluded, as the emitted code returns a placeholder there. -/
theorem eval_terminator_leave {i : ℕ} {term : Terminator} {code : Code}
    (hcode : emitRelooperTerminator B.intern f i term = some code)
    (hlocals : ∀ j ∈ term.locals, j < n) (hret : term = .ret none → f.isVoid = true)
    {s : State W} (hstack : s.machine.stack = [])
    (ht : relooperNext (slotValue B s.machine.locals) term = none) :
    ∃ stack, eval B f.isVoid fuel code s =
      leaveOutcome f.isVoid (slotValue B s.machine.locals) (s.withStack stack) term := by
  obtain ⟨⟨locals, stack⟩, world, trace⟩ := s
  obtain rfl : stack = [] := hstack
  cases term with
  | goto target | branch cond th el | switch value targets default => cases ht
  | unreachable =>
    cases hcode
    exact ⟨[], rfl⟩
  | ret op =>
    cases op with
    | none =>
      cases hcode
      refine ⟨[], ?_⟩
      rw [hret rfl]
      rfl
    | some op =>
      cases hcode
      refine ⟨[.i64 (slotValue B locals op)], ?_⟩
      have hops : execOps [emitOperand B.intern op] ⟨locals, []⟩ =
          .ok ⟨locals, [.i64 (slotValue B locals op)]⟩ := by
        rw [execOps_cons_ok (exec_emitOperand B hlocals _ _), execOps_nil]
      rw [eval_seq_next _ _ _ (eval_ops _ _ _ hops)]
      cases hv : f.isVoid <;> rfl

end Terminators

/-! ## Dispatch -/

variable {bs : List BasicBlock} {b : BasicBlock}

section Dispatch

variable {n : ℕ} {W : Type} {f : MirFunction} (B : WasmBodies n W) (fuel : ℕ)

/-- The outcome leaves through the label `k` or leaves the function. -/
def Outcome.Exits (k : ℕ) : Outcome W → Prop
  | .next _ => False
  | .br j _ => j = k
  | _ => True

/-- The same outcome, seen from under fewer labels. -/
def Outcome.relabel (k : ℕ) : Outcome W → Outcome W
  | .br _ s => .br k s
  | o => o

theorem Outcome.Exits.exitLabel {k : ℕ} {o : Outcome W} (h : o.Exits (k + 1))
    (stack : List Value) : o.exitLabel stack = o.relabel k := by
  cases o with
  | next s => exact h.elim
  | br j s =>
    obtain rfl : j = k + 1 := h
    rfl
  | ret v s | trap t s | stopped s | outOfFuel s => rfl

theorem Outcome.relabel_exits {k j : ℕ} {o : Outcome W} (h : o.Exits j) :
    (o.relabel k).Exits k := by
  cases o <;> first | exact h.elim | exact rfl | trivial

theorem Outcome.relabel_relabel (j k : ℕ) (o : Outcome W) :
    (o.relabel j).relabel k = o.relabel k := by
  cases o <;> rfl

theorem withStack_nil {s : State W} (h : s.machine.stack = []) : s.withStack [] = s := by
  obtain ⟨⟨locals, stack⟩, world, trace⟩ := s
  obtain rfl : stack = [] := h
  rfl

/-- The test of the program counter. -/
theorem eval_emitTest (i : ℕ) {p : ℕ} {s : State W} (hstack : s.machine.stack = [])
    (hpc : s.machine.locals (cgPcLocal f) = BitVec.ofNat 64 p) :
    eval B f.isVoid fuel (.ops (emitTest f i)) s =
      .next (s.withStack [.i32 (ofBool (BitVec.ofNat 64 p == BitVec.ofNat 64 i))]) := by
  obtain ⟨⟨locals, stack⟩, world, trace⟩ := s
  obtain rfl : stack = [] := hstack
  refine eval_ops _ _ _ (m := ⟨locals, _⟩) ?_
  rw [emitTest, indexConst, execOps_cons_ok (exec_localGet _ _ _),
    execOps_cons_ok (exec_i64Const _ _ _), execOps_cons_ok (exec_i64Eq _ _ _ _), execOps_nil]
  rw [show locals (cgPcLocal f) = BitVec.ofNat 64 p from hpc]

theorem ofNat_beq_ofNat {p i : ℕ} (hp : p < 2 ^ 64) (hi : i < 2 ^ 64) :
    (BitVec.ofNat 64 p == BitVec.ofNat 64 i) = decide (p = i) := by
  rw [Bool.eq_iff_iff, beq_iff_eq, decide_eq_true_eq, ← BitVec.toNat_inj, BitVec.toNat_ofNat,
    BitVec.toNat_ofNat, Nat.mod_eq_of_lt hp, Nat.mod_eq_of_lt hi]

/-- **Dispatch.** The nest from position `i` on runs the block at the position the program counter
holds, and a branch to the loop's label arrives there. -/
theorem eval_nest {i p : ℕ} {code bcode : Code} (hnest : emitNest B.intern f i bs = some code)
    (hip : i ≤ p) (hb : bs[p - i]? = some b) (hbound : i + bs.length ≤ 2 ^ 64)
    (hblock : emitRelooperBlock B.intern f p b = some bcode) {s : State W}
    (hstack : s.machine.stack = []) (hpc : s.machine.locals (cgPcLocal f) = BitVec.ofNat 64 p)
    (hexits : (eval B f.isVoid fuel bcode s).Exits (p + 1)) :
    eval B f.isVoid fuel code s = (eval B f.isVoid fuel bcode s).relabel i := by
  induction bs generalizing i code with
  | nil => simp at hb
  | cons b' bs ih =>
    simp only [emitNest, Option.bind_eq_bind, Option.bind_eq_some_iff, Option.some.injEq] at hnest
    obtain ⟨code', hcode', rest, hrest, rfl⟩ := hnest
    have hlen : p - i < (b' :: bs).length := by
      by_contra hge
      rw [List.getElem?_eq_none (not_lt.mp hge)] at hb
      cases hb
    rw [List.length_cons] at hbound hlen
    rw [eval_seq_next _ _ _ (eval_emitTest B fuel i hstack hpc),
      ofNat_beq_ofNat (by omega) (by omega)]
    by_cases hpi : p = i
    · subst hpi
      obtain rfl : b' = b := by simpa using hb
      obtain rfl : code' = bcode := Option.some.inj (hcode'.symm.trans hblock)
      have hs : (s.withStack [Value.i32 (ofBool (decide (p = p)))]).withStack [] = s :=
        withStack_nil hstack
      simp only [eval, State.withStack, decide_true, ofBool, if_true]
      rw [if_pos (by decide)]
      exact (congrArg (fun s => (eval B f.isVoid fuel code' s).exitLabel []) hs).trans
        (hexits.exitLabel [])
    · have hs : (s.withStack [Value.i32 (ofBool (decide (p = i)))]).withStack [] = s :=
        withStack_nil hstack
      have hrec := ih hrest (by omega) (by
        rw [show p - i = (p - (i + 1)) + 1 by omega, List.getElem?_cons_succ] at hb
        exact hb) (by omega)
      have hexit := (Outcome.relabel_exits (k := i + 1) hexits).exitLabel []
      rw [Outcome.relabel_relabel] at hexit
      simp only [eval, State.withStack, hpi, decide_false, ofBool, Bool.false_eq_true, if_false]
      rw [if_neg (by decide)]
      refine (congrArg (fun s => (eval B f.isVoid fuel rest s).exitLabel []) hs).trans ?_
      rw [hrec, hexit]

end Dispatch

/-! ## Simulation -/

section Simulation

variable {n : ℕ} {W : Type} {f : MirFunction} (B : WasmBodies n W)

/-- The MIR locals, the world and the executed bodies are the same. -/
structure Agrees (cs : CfgState n W) (s : State W) : Prop where
  locals : ∀ i : Fin n, s.machine.locals i = cs.locals i
  world : s.world = cs.world
  trace : s.trace = cs.trace

/-- Both runs are where the other is: still running after as many blocks, returned with one value,
at an `Unreachable`, or stopped in a body. -/
def Matches : CfgOutcome n W → Outcome W → Prop
  | .running _ cs, .outOfFuel s => Agrees cs s
  | .returned v cs, .ret v' s => v' = v.map .i64 ∧ Agrees cs s
  | .unreachable cs, .trap .unreachable s => Agrees cs s
  | .stopped cs, .stopped s => Agrees cs s
  | _, _ => False

/-- The condition on a terminator, in the values it reads: the low half of a `Branch` condition
decides as the whole does, the first matching case of a `Switch` and the last lead to one block, and
a bare `Return` stands in a void function. -/
def RelooperSafe (f : MirFunction) (term : Terminator) (value : Operand → I64) : Prop :=
  match term with
  | .branch cond t e => t = e ∨ (value cond = 0 ↔ (value cond).setWidth 32 = 0)
  | .switch v targets default =>
    switchTarget (value v) targets default = lastTarget (value v) targets default
  | .ret none => f.isVoid = true
  | _ => True

theorem RelooperSafe.next_eq {term : Terminator} {value : Operand → I64}
    (h : RelooperSafe f term value) : relooperNext value term = term.next value := by
  cases term with
  | ret op | goto t | unreachable => rfl
  | branch cond t e =>
    obtain rfl | h := h
    · simp [relooperNext, Terminator.next]
    · by_cases h0 : value cond = 0
      · rw [relooperNext, Terminator.next, if_neg (not_not.mpr (h.mp h0)), if_neg (not_not.mpr h0)]
      · have h1 : (value cond).setWidth 32 ≠ 0 := fun hz => h0 (h.mpr hz)
        simp only [relooperNext, Terminator.next, ne_eq, h1, h0, not_false_eq_true, if_true]
  | switch v targets default =>
    have h' : switchTarget (value v) targets default = lastTarget (value v) targets default := h
    simp only [relooperNext, Terminator.next, h']

/-- Every block has a position. -/
theorem exists_blockIndex (hb : b ∈ f.blocks) : ∃ idx, blockIndex f b.id = some idx := by
  have h : (blockIndex f b.id).isSome := by
    rw [blockIndex, List.findIdx?_isSome, List.any_eq_true]
    exact ⟨b, hb, by simp⟩
  exact Option.isSome_iff_exists.mp h

/-- The block at the position of an id is the block with that id. -/
theorem getElem?_blockIndex {id : BlockId} (h : blockIndex f id = some idx) :
    ∃ b, f.blocks[idx]? = some b ∧ f.findBlock id = some b ∧ b.id = id := by
  obtain ⟨hlt, hid, hbefore⟩ := List.findIdx?_eq_some_iff_getElem.mp h
  refine ⟨f.blocks[idx], List.getElem?_eq_getElem hlt, ?_, by simpa using hid⟩
  rw [MirFunction.findBlock, List.find?_eq_some_iff_getElem]
  exact ⟨hid, idx, hlt, rfl, fun j hj => by simpa using hbefore j hj⟩

theorem exists_emitSwitchCases (pc : ℕ) (value : Op) {targets : List (I64 × BlockId)}
    (h : ∀ t ∈ targets.map Prod.snd, ∃ idx, blockIndex f t = some idx) :
    ∃ ops, emitSwitchCases f pc value targets = some ops := by
  induction targets with
  | nil => exact ⟨[], rfl⟩
  | cons ct rest ih =>
    obtain ⟨ti, hti⟩ := h ct.2 (by simp)
    obtain ⟨ops, hops⟩ := ih fun t ht => h t (List.mem_cons_of_mem _ ht)
    simp only [emitSwitchCases, hti, hops]
    exact ⟨_, rfl⟩

theorem exists_emitRelooperTerminator (hf : WellFormedCfg f) (intern : String → I64)
    (hb : b ∈ f.blocks) (i : ℕ) :
    ∃ code, emitRelooperTerminator intern f i b.terminator = some code := by
  have hidx : ∀ t ∈ b.successors, ∃ idx, blockIndex f t = some idx := by
    intro t ht
    obtain ⟨b', hb', rfl⟩ := hf.target b hb t ht
    exact exists_blockIndex hb'
  unfold BasicBlock.successors at hidx
  cases hterm : b.terminator with
  | ret op => cases op <;> exact ⟨_, rfl⟩
  | unreachable => exact ⟨_, rfl⟩
  | goto t =>
    rw [hterm] at hidx
    obtain ⟨idx, h⟩ := hidx t (by simp)
    simp only [emitRelooperTerminator, h]
    exact ⟨_, rfl⟩
  | branch cond t e =>
    rw [hterm] at hidx
    obtain ⟨ti, ht⟩ := hidx t (by simp)
    obtain ⟨ei, he⟩ := hidx e (by simp)
    simp only [emitRelooperTerminator, ht, he]
    exact ⟨_, rfl⟩
  | switch v targets default =>
    rw [hterm] at hidx
    obtain ⟨di, hd⟩ := hidx default (by simp)
    obtain ⟨ops, hops⟩ := exists_emitSwitchCases (cgPcLocal f) (emitOperand intern v)
      fun t ht => hidx t (List.mem_append_left _ ht)
    simp only [emitRelooperTerminator, hd, hops]
    exact ⟨_, rfl⟩

/-- Emission succeeds when every target exists. -/
theorem exists_emitNest (hf : WellFormedCfg f) (intern : String → I64)
    (hbs : ∀ b ∈ bs, b ∈ f.blocks) (i : ℕ) : ∃ code, emitNest intern f i bs = some code := by
  induction bs generalizing i with
  | nil => exact ⟨_, rfl⟩
  | cons b bs ih =>
    obtain ⟨term, hterm⟩ := exists_emitRelooperTerminator hf intern (hbs b List.mem_cons_self) i
    obtain ⟨rest, hrest⟩ := ih (fun b' hb' => hbs b' (List.mem_cons_of_mem b hb')) (i + 1)
    simp only [emitNest, emitRelooperBlock, hterm, hrest]
    exact ⟨_, rfl⟩

/-- Every block of an emitted nest was emitted. -/
theorem exists_emitRelooperBlock (hf : WellFormedCfg f) (intern : String → I64) (hb : b ∈ f.blocks)
    (i : ℕ) : ∃ term, emitRelooperTerminator intern f i b.terminator = some term ∧
      emitRelooperBlock intern f i b = some (.seq (.body b.id) term) := by
  obtain ⟨term, hterm⟩ := exists_emitRelooperTerminator hf intern hb i
  exact ⟨term, hterm, by simp [emitRelooperBlock, hterm]⟩

theorem leaveOutcome_exits (isVoid : Bool) (value : Operand → I64) (s : State W)
    (term : Terminator) (k : ℕ) : (leaveOutcome isVoid value s term).Exits k := by
  cases term <;> trivial

theorem leaveOutcome_relabel (isVoid : Bool) (value : Operand → I64) (s : State W)
    (term : Terminator) (k : ℕ) :
    (leaveOutcome isVoid value s term).relabel k = leaveOutcome isVoid value s term := by
  cases term <;> rfl

section

variable {nest : Code} (hf : WellFormedCfg f) (hn : f.locals.length = n)
  (hnest : emitNest B.intern f 0 f.blocks = some nest)

include hf hn hnest

/-- **One block.** From the position of a block, the nest executes its body and either is back at
the loop with the position of the successor, or has left the function as the graph does. -/
theorem eval_nest_block (fuel : ℕ) {id : BlockId} (hidx : blockIndex f id = some idx)
    {cs : CfgState n W} {s : State W} (h : Agrees cs s) (hstack : s.machine.stack = [])
    (hpc : s.machine.locals (cgPcLocal f) = BitVec.ofNat 64 idx) :
    ∃ b, f.findBlock id = some b ∧ b ∈ f.blocks ∧
      match B.run id cs.locals cs.world with
      | none => ∃ s', eval B f.isVoid fuel nest s = .stopped s' ∧
          Agrees { cs with trace := cs.trace ++ [id] } s'
      | some (mir, w) => RelooperSafe f b.terminator (B.value mir) →
          match b.terminator.next (B.value mir) with
          | some t => ∃ idx' s', blockIndex f t = some idx' ∧
              eval B f.isVoid fuel nest s = .br 0 (withPc f s' idx') ∧
              Agrees ⟨mir, w, cs.trace ++ [id]⟩ s'
          | none => ∃ s', eval B f.isVoid fuel nest s =
              leaveOutcome f.isVoid (B.value mir) s' b.terminator ∧
              Agrees ⟨mir, w, cs.trace ++ [id]⟩ s' := by
  obtain ⟨b, hb, hfind, rfl⟩ := getElem?_blockIndex hidx
  have hmem : b ∈ f.blocks := List.mem_of_getElem? hb
  obtain ⟨term, hterm, hblock⟩ := exists_emitRelooperBlock hf B.intern hmem idx
  have hmir : (fun i : Fin n => s.machine.locals i) = cs.locals := funext h.locals
  have hlocals : ∀ j ∈ b.terminator.locals, j < n := hn ▸ hf.declared b hmem
  have hbound : 0 + f.blocks.length ≤ 2 ^ 64 := by
    have := hf.length_le
    omega
  have hdispatch := fun hex => eval_nest B fuel hnest (Nat.zero_le idx) hb hbound hblock hstack hpc hex
  refine ⟨b, hfind, hmem, ?_⟩
  cases hrun : B.run b.id cs.locals cs.world with
  | none =>
    have hbody : eval B f.isVoid fuel (.body b.id) s =
        .stopped { s with trace := s.trace ++ [b.id] } := by
      rw [eval, hmir, h.world, hrun]
    have hcode : eval B f.isVoid fuel (.seq (.body b.id) term) s =
        .stopped { s with trace := s.trace ++ [b.id] } := by rw [eval, hbody]
    rw [hcode] at hdispatch
    refine ⟨_, hdispatch trivial, h.locals, h.world, ?_⟩
    exact congrArg (· ++ [b.id]) h.trace
  | some r =>
    obtain ⟨mir, w⟩ := r
    intro hsafe
    have hbody : eval B f.isVoid fuel (.body b.id) s =
        .next ⟨⟨B.locals b.id s.world s.machine.locals mir, s.machine.stack⟩, w,
          s.trace ++ [b.id]⟩ := by
      rw [eval, hmir, h.world, hrun]
    have hcode := eval_seq_next _ _ _ hbody (d := term)
    set s' : State W := ⟨⟨B.locals b.id s.world s.machine.locals mir, s.machine.stack⟩, w,
      s.trace ++ [b.id]⟩ with hs'
    have hagree : Agrees ⟨mir, w, cs.trace ++ [b.id]⟩ s' :=
      ⟨fun i => by simp [hs', WasmBodies.locals], rfl, congrArg (· ++ [b.id]) h.trace⟩
    have hvalue : slotValue B s'.machine.locals = B.value mir :=
      congrArg B.value (funext hagree.locals)
    have hnext : relooperNext (slotValue B s'.machine.locals) b.terminator =
        b.terminator.next (B.value mir) := by rw [hvalue, hsafe.next_eq]
    rw [hcode] at hdispatch
    cases ht : b.terminator.next (B.value mir) with
    | some t =>
      obtain ⟨idx', hidx', heval⟩ := eval_terminator_next B fuel hn hterm hlocals (s := s') hstack
        (hnext.trans ht)
      rw [heval] at hdispatch
      exact ⟨idx', s', hidx', hdispatch rfl, hagree⟩
    | none =>
      have hret : b.terminator = .ret none → f.isVoid = true := by
        intro hr
        rw [hr] at hsafe
        exact hsafe
      obtain ⟨stack, heval⟩ := eval_terminator_leave B fuel hterm hlocals hret (s := s') hstack
        (hnext.trans ht)
      rw [heval, hvalue] at hdispatch
      refine ⟨s'.withStack stack, ?_, hagree.locals, hagree.world, hagree.trace⟩
      rw [hdispatch (leaveOutcome_exits _ _ _ _ _), leaveOutcome_relabel]

/-- **The dispatch loop** runs the graph, block for block. -/
theorem loopIter_matches (fuel k : ℕ) {id : BlockId} (hidx : blockIndex f id = some idx)
    {cs : CfgState n W} {s : State W} (h : Agrees cs s)
    (hpc : s.machine.locals (cgPcLocal f) = BitVec.ofNat 64 idx)
    (hsafe : AllTerminators (RelooperSafe f) B.toBodies f k id cs) :
    Matches (cfgRun B.toBodies f k id cs) (loopIter (eval B f.isVoid fuel nest) [] k s) := by
  induction k generalizing id idx cs s with
  | zero => exact h
  | succ k ih =>
    have h' : Agrees cs (s.withStack []) := ⟨h.locals, h.world, h.trace⟩
    obtain ⟨b, hfind, hmem, hstep⟩ := eval_nest_block B hf hn hnest fuel hidx h' rfl hpc
    rw [cfgRun, loopIter, hfind]
    cases hrun : B.run id cs.locals cs.world with
    | none =>
      rw [hrun] at hstep
      obtain ⟨s', heval, hagree⟩ := hstep
      simp only [heval]
      exact hagree
    | some r =>
      obtain ⟨mir, w⟩ := r
      rw [hrun] at hstep
      obtain ⟨hterm, hrest⟩ := hsafe b mir w hfind hrun
      have hstep' := hstep hterm
      cases ht : b.terminator.next (B.value mir) with
      | some t =>
        rw [ht] at hstep'
        obtain ⟨idx', s', hidx', heval, hagree⟩ := hstep'
        simp only [heval, ht]
        refine ih hidx' ⟨fun i => ?_, hagree.world, hagree.trace⟩ ?_ (hrest t ht)
        · rw [← hagree.locals i]
          exact Function.update_of_ne (by rw [cgPcLocal, hn]; omega) _ _
        · exact Function.update_self _ _ _
      | none =>
        rw [ht] at hstep'
        obtain ⟨s', heval, hagree⟩ := hstep'
        simp only [heval, ht]
        cases hb : b.terminator with
        | ret op => exact ⟨rfl, hagree⟩
        | unreachable => exact hagree
        | goto t =>
          rw [hb] at ht
          cases ht
        | branch cond t e =>
          rw [hb] at ht
          cases ht
        | switch v targets default =>
          rw [hb] at ht
          cases ht

end

end Simulation

/-! ## Branch depths -/

section Depths

variable {f : MirFunction} {intern : String → I64}

theorem brFrames_terminator {i : ℕ} {term : Terminator} {code : Code}
    (h : emitRelooperTerminator intern f i term = some code) (ctx : List Frame) :
    ∀ fr ∈ brFrames ctx code, fr = ctx[i + 1]? := by
  cases term with
  | goto t =>
    simp only [emitRelooperTerminator, Option.bind_eq_bind, Option.bind_eq_some_iff,
      Option.some.injEq] at h
    obtain ⟨idx, -, rfl⟩ := h
    simp [brFrames]
  | branch cond t e =>
    simp only [emitRelooperTerminator, Option.bind_eq_bind, Option.bind_eq_some_iff,
      Option.some.injEq] at h
    obtain ⟨ti, -, ei, -, rfl⟩ := h
    simp [brFrames]
  | switch v targets default =>
    simp only [emitRelooperTerminator, Option.bind_eq_bind, Option.bind_eq_some_iff,
      Option.some.injEq] at h
    obtain ⟨di, -, ops, -, rfl⟩ := h
    simp [brFrames]
  | ret op =>
    cases op <;> cases h <;> simp [brFrames]
  | unreachable =>
    cases h
    simp [brFrames]

/-- Under `i` `if`s and the dispatch loop, the branches of the nest from position `i` on address the
loop. -/
theorem brFrames_emitNest {i : ℕ} {code : Code} (h : emitNest intern f i bs = some code) :
    ∀ fr ∈ brFrames (List.replicate i .ite ++ [.loop]) code, fr = some .loop := by
  induction bs generalizing i code with
  | nil =>
    cases h
    simp [brFrames]
  | cons b bs ih =>
    simp only [emitNest, emitRelooperBlock, Option.bind_eq_bind, Option.bind_eq_some_iff,
      Option.some.injEq] at h
    obtain ⟨code', ⟨term, hterm, rfl⟩, rest, hrest, rfl⟩ := h
    intro fr hfr
    simp only [brFrames, brFrames_ops, List.nil_append, List.mem_append] at hfr
    rw [← List.cons_append, ← List.replicate_succ] at hfr
    obtain hfr | hfr := hfr
    · have := brFrames_terminator hterm _ fr hfr
      rw [this, List.getElem?_append_right (by simp)]
      simp
    · exact ih hrest fr hfr

end Depths

/-! ## The relooper -/

/-- A matched outcome is final. -/
theorem Matches.seq {n : ℕ} {W : Type} {B : WasmBodies n W} {isVoid : Bool} {fuel : ℕ}
    {o : CfgOutcome n W} {c : Code} {s : State W} (h : Matches o (eval B isVoid fuel c s))
    (d : Code) : Matches o (eval B isVoid fuel (.seq c d) s) := by
  rw [eval]
  cases hc : eval B isVoid fuel c s with
  | next s' =>
    rw [hc] at h
    cases o <;> exact h.elim
  | br k s' | ret v s' | trap t s' | stopped s' | outOfFuel s' =>
    rw [hc] at h
    exact h

/-- **The dispatch relooper preserves control flow.** For every well-formed function, reducible or
not, emission succeeds; after any number of blocks whose terminators meet `RelooperSafe` the emitted
loop has executed the bodies the graph executed, in the same state, and has returned, trapped or
stopped exactly as the graph did; every branch addresses the dispatch loop; and the reserved locals
are not MIR locals. -/
theorem relooper_preserves_control_flow {f : MirFunction} (hf : WellFormedCfg f) {W : Type}
    (B : WasmBodies f.locals.length W) {entry : BasicBlock}
    (hentry : f.blocks.head? = some entry) :
    ∃ code, emitRelooper B.intern f = some code ∧
      (∀ (fuel : ℕ) (cs : CfgState f.locals.length W) (s : State W), Agrees cs s →
        s.machine.stack = [] →
        AllTerminators (RelooperSafe f) B.toBodies f fuel entry.id cs →
        Matches (cfgRun B.toBodies f fuel entry.id cs) (eval B f.isVoid fuel code s)) ∧
      (∀ fr ∈ brFrames [] code, fr = some .loop) ∧
      (∀ i < f.locals.length, i ≠ cgScratchLocal f ∧ i ≠ cgScratchLocal2 f ∧ i ≠ cgPcLocal f) ∧
      cgPcLocal f ≠ cgScratchLocal f ∧ cgPcLocal f ≠ cgScratchLocal2 f := by
  obtain ⟨nest, hnest⟩ := exists_emitNest hf B.intern (fun b hb => hb) 0
  have hidx : blockIndex f entry.id = some 0 := by
    obtain ⟨bs, hbs⟩ := List.head?_eq_some_iff.mp hentry
    simp [blockIndex, hbs, List.findIdx?_cons]
  refine ⟨_, by rw [emitRelooper, hnest]; rfl, ?_, ?_, ?_, ?_⟩
  · intro fuel cs s h hstack hsafe
    obtain ⟨⟨locals, stack⟩, world, trace⟩ := s
    obtain rfl : stack = [] := hstack
    have hops : execOps [.i64Const 0, .localSet (cgPcLocal f)] ⟨locals, []⟩ =
        .ok ⟨Function.update locals (cgPcLocal f) 0, []⟩ := rfl
    rw [eval_seq_next _ _ _ (eval_ops _ _ _ hops)]
    apply Matches.seq
    refine loopIter_matches B hf rfl hnest fuel fuel hidx ⟨fun i => ?_, h.world, h.trace⟩
      (Function.update_self _ _ _) hsafe
    rw [← h.locals i]
    exact Function.update_of_ne (by rw [cgPcLocal]; omega) _ _
  · intro fr hfr
    simp only [brFrames, brFrames_ops, List.nil_append, List.append_nil] at hfr
    exact brFrames_emitNest hnest fr hfr
  · intro i hi
    simp only [cgScratchLocal, cgScratchLocal2, cgPcLocal]
    omega
  · simp only [cgScratchLocal, cgScratchLocal2, cgPcLocal]
    omega

/-- Bodies that do nothing. -/
def idleBodies (n : ℕ) : WasmBodies n Unit where
  run := fun _ locals w => some (locals, w)
  intern := fun _ => 0
  scratch := fun _ _ _ => (0, 0)

/-- Ids with gaps, out of order, and a self-loop: `bb7: branch _0, bb3, bb7` and `bb3: return _0`. -/
def spin : MirFunction where
  name := "spin"
  params := [⟨0, .i64⟩]
  retTy := .i64
  blocks := [⟨7, [], .branch (.local 0) 3 7⟩, ⟨3, [], .ret (some (.local 0))⟩]
  locals := [⟨0, none, .i64, false⟩]
  attributes := {}

theorem relooper_preserves_control_flow_spin :
    ∃ code, emitRelooper (fun _ => 0) spin = some code ∧
      Matches (cfgRun (idleBodies 1).toBodies spin 2 7 ⟨fun _ => 5, (), []⟩)
        (eval (idleBodies 1) spin.isVoid 2 code ⟨⟨fun _ => 5, []⟩, (), []⟩) := by
  have hf : WellFormedCfg spin :=
    { nodup := by decide, id_lt := by decide, target := by decide, declared := by decide }
  have hentry : spin.blocks.head? = some ⟨7, [], .branch (.local 0) 3 7⟩ := rfl
  obtain ⟨code, hcode, hrun, -⟩ := relooper_preserves_control_flow hf (idleBodies 1) hentry
  refine ⟨code, hcode, hrun 2 _ _ ⟨fun _ => rfl, rfl, rfl⟩ rfl ?_⟩
  rintro b locals world hb hbody
  cases hb
  cases hbody
  refine ⟨.inr (by decide), ?_⟩
  rintro t ht
  cases ht
  rintro b locals world hb -
  cases hb
  exact ⟨trivial, fun t ht => by cases ht⟩

/-- `switch 1 { 1 => bb1, 1 => bb2, _ => bb2 }`, with `bb1` returning `10` and `bb2` returning
`20`. -/
def duplicatedCase : MirFunction where
  name := "f"
  params := []
  retTy := .i64
  blocks := [⟨0, [], .switch (.constant (.int 1)) [(1, 1), (1, 2)] 2⟩,
    ⟨1, [], .ret (some (.constant (.int 10)))⟩, ⟨2, [], .ret (some (.constant (.int 20)))⟩]
  locals := []
  attributes := {}

theorem wellFormedCfg_duplicatedCase : WellFormedCfg duplicatedCase where
  nodup := by decide
  id_lt := by decide
  target := by decide
  declared := by decide

/-- The graph takes the first of the equal cases and returns `10`; the emitted loop takes the last
and returns `20`. -/
theorem duplicated_case_takes_last : WellFormedCfg duplicatedCase ∧
    ∃ code, emitRelooper (fun _ => 0) duplicatedCase = some code ∧
      ¬Matches (cfgRun (idleBodies 0).toBodies duplicatedCase 2 0 ⟨fun _ => 0, (), []⟩)
        (eval (idleBodies 0) duplicatedCase.isVoid 2 code ⟨⟨fun _ => 0, []⟩, (), []⟩) := by
  refine ⟨wellFormedCfg_duplicatedCase, _, rfl, ?_⟩
  intro h
  exact absurd h.1 (by decide)

end Wasm

end Kryos
