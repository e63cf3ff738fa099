import Mathlib
import Kryos.Mir.Semantics

/-!
# Common pure calls

`cse_pure_calls` of `kryos-mir/src/optimize/pure.rs`: within a block, a call of a `@pure` function
that is written like an earlier one becomes a copy of the earlier result.

MIR is not in SSA form, and the table of calls seen so far is never invalidated. A merge is right
exactly when the recorded local still holds the value of the call on its *current* arguments
(`cse_lockstep_iff`); it is when none of the locals involved has been written in between
(`execInsts_cseInstructions`).

## Main results

* `cse_lockstep_iff` — the exact condition, for each interpretation and each initial valuation
* `cse_pure_calls_agrees` — the block under the condition
-/

namespace Kryos

/-! ## The pass -/

/-- Hashable operand representation; a float is compared by its bits. -/
inductive OperandKey
  | «local» (id : LocalId)
  | constInt (v : I64)
  | constFloat (bits : UInt64)
  | constBool (b : Bool)
  | constString (s : String)
  | constNone
  deriving Repr, DecidableEq

/-- A pure call: the function and its arguments. -/
structure PureCallKey where
  func : String
  args : List OperandKey
  deriving Repr, DecidableEq

def operandToKey : Operand → Option OperandKey
  | .local id => some (.local id)
  | .constant (.int v) => some (.constInt v)
  | .constant (.float bits) => some (.constFloat bits)
  | .constant (.bool b) => some (.constBool b)
  | .constant (.str s) => some (.constString s)
  | .constant .none => some .constNone

def makeCallKey (func : String) (args : List Operand) : Option PureCallKey :=
  (args.mapM operandToKey).map fun keys => ⟨func, keys⟩

/-- The calls seen so far in the block, with the local that holds each result. -/
abbrev SeenCalls := List (PureCallKey × LocalId)

def SeenCalls.get (seen : SeenCalls) (key : PureCallKey) : Option LocalId := seen.lookup key

/-- The effect of one instruction on the table, and what it is replaced with. -/
def cseInstruction (pureFns : List String) (seen : SeenCalls) (inst : Instruction) :
    Instruction × SeenCalls :=
  match inst with
  | .assign dest (.call callee args) =>
    if callee ∈ pureFns then
      match makeCallKey callee args with
      | some key =>
        match seen.get key with
        | some prevDest => (.assign dest (.use (.local prevDest)), seen)
        | none => (inst, (key, dest) :: seen)
      | none => (inst, seen)
    else (inst, seen)
  | _ => (inst, seen)

def cseInstructions (pureFns : List String) : SeenCalls → List Instruction → List Instruction
  | _, [] => []
  | seen, inst :: insts =>
    (cseInstruction pureFns seen inst).1 ::
      cseInstructions pureFns (cseInstruction pureFns seen inst).2 insts

/-- `cse_pure_calls`: one table for each block. -/
def csePureCalls (pureFns : List String) (f : MirFunction) : MirFunction :=
  { f with blocks := f.blocks.map fun b =>
      { b with instructions := cseInstructions pureFns [] b.instructions } }

/-! ## Keys -/

theorem operandToKey_injective : Function.Injective operandToKey := by
  rintro (a | (a | a | a | a | _)) (b | (b | b | b | b | _)) h <;> simp_all [operandToKey]

theorem exists_operandToKey (op : Operand) : ∃ k, operandToKey op = some k := by
  rcases op with _ | (_ | _ | _ | _ | _) <;> exact ⟨_, rfl⟩

variable {args : List Operand}

/-- Two argument lists with one list of keys are the same list. -/
theorem mapM_operandToKey_inj {args' : List Operand} {keys : List OperandKey}
    (h : args.mapM operandToKey = some keys) (h' : args'.mapM operandToKey = some keys) :
    args = args' := by
  induction args generalizing args' keys with
  | nil =>
    cases h
    cases args' with
    | nil => rfl
    | cons a as =>
      simp only [List.mapM_cons, Option.bind_eq_bind, Option.bind_eq_some_iff] at h'
      obtain ⟨_, _, _, _, h'⟩ := h'
      cases h'
  | cons a as ih =>
    simp only [List.mapM_cons, Option.bind_eq_bind, Option.bind_eq_some_iff, Option.pure_def,
      Option.some.injEq] at h
    obtain ⟨k, hk, ks, hks, rfl⟩ := h
    cases args' with
    | nil => cases h'
    | cons b bs =>
      simp only [List.mapM_cons, Option.bind_eq_bind, Option.bind_eq_some_iff, Option.pure_def,
        Option.some.injEq, List.cons.injEq] at h'
      obtain ⟨k', hk', ks', hks', rfl, rfl⟩ := h'
      rw [operandToKey_injective (hk.trans hk'.symm), ih hks hks']

variable {key : PureCallKey}

theorem makeCallKey_inj {func func' : String} {args' : List Operand}
    (h : makeCallKey func args = some key) (h' : makeCallKey func' args' = some key) :
    func = func' ∧ args = args' := by
  obtain ⟨keys, hkeys, rfl⟩ := Option.map_eq_some_iff.mp h
  obtain ⟨keys', hkeys', heq⟩ := Option.map_eq_some_iff.mp h'
  cases heq
  exact ⟨rfl, mapM_operandToKey_inj hkeys hkeys'⟩

theorem exists_makeCallKey (func : String) (args : List Operand) :
    ∃ key, makeCallKey func args = some key := by
  have h : ∃ keys, args.mapM operandToKey = some keys := by
    induction args with
    | nil => exact ⟨[], rfl⟩
    | cons a as ih =>
      obtain ⟨k, hk⟩ := exists_operandToKey a
      obtain ⟨ks, hks⟩ := ih
      exact ⟨k :: ks, by simp [List.mapM_cons, hk, hks]⟩
  obtain ⟨keys, hkeys⟩ := h
  exact ⟨⟨func, keys⟩, by simp [makeCallKey, hkeys]⟩

/-! ## The exact condition -/

/-- An interpretation in which the calls of `pureFns` are total functions of their arguments. -/
structure PureInterp (V W A : Type) (pureFns : List String) extends Interp V W A where
  pureFn : String → List V → V
  rvalue_pure : ∀ f ∈ pureFns, ∀ args w, rvalue (.call f args) [] w = .ok (pureFn f args, w)

section Semantics

variable {V W A : Type} {pureFns : List String} (I : PureInterp V W A pureFns) (L : Layout A)

/-- If the call is merged, the recorded local holds its value on the current arguments. -/
def MergeSound (seen : SeenCalls) (s : MState V W) (inst : Instruction) : Prop :=
  ∀ dest callee args key prev, inst = .assign dest (.call callee args) → callee ∈ pureFns →
    makeCallKey callee args = some key → seen.get key = some prev →
    readLocal I.toInterp L s prev = I.pureFn callee (args.map (readOperand I.toInterp L s))

/-- Every merge of the block is sound in the state the original reaches it in. -/
def MergesSound : SeenCalls → List Instruction → MState V W → Prop
  | _, [], _ => True
  | seen, inst :: insts, s => MergeSound I L seen s inst ∧
      ∀ s', execInst I.toInterp L s inst = .ok s' →
        MergesSound (cseInstruction pureFns seen inst).2 insts s'

/-- An instruction is kept, or it is a pure call that was seen before. -/
theorem cseInstruction_cases (pureFns : List String) (seen : SeenCalls) (inst : Instruction) :
    ((cseInstruction pureFns seen inst).1 = inst ∧
      ∀ dest callee args key, inst = .assign dest (.call callee args) → callee ∈ pureFns →
        makeCallKey callee args = some key → seen.get key = none) ∨
    ∃ dest callee args key prev, inst = .assign dest (.call callee args) ∧ callee ∈ pureFns ∧
      makeCallKey callee args = some key ∧ seen.get key = some prev ∧
      cseInstruction pureFns seen inst = (.assign dest (.use (.local prev)), seen) := by
  by_cases hcall : ∃ dest callee args, inst = .assign dest (.call callee args) ∧ callee ∈ pureFns
  · obtain ⟨dest, callee, args, rfl, hpure⟩ := hcall
    obtain ⟨key, hkey⟩ := exists_makeCallKey callee args
    rcases hseen : seen.get key with _ | prev
    · refine .inl ⟨by simp [cseInstruction, hpure, hkey, hseen], ?_⟩
      rintro dest' callee' args' key' heq - hkey'
      cases heq
      rw [hkey] at hkey'
      cases hkey'
      exact hseen
    · exact .inr ⟨dest, callee, args, key, prev, rfl, hpure, hkey, hseen,
        by simp [cseInstruction, hpure, hkey, hseen]⟩
  · refine .inl ⟨?_, fun dest callee args key heq hpure => (hcall ⟨dest, callee, args, heq, hpure⟩).elim⟩
    unfold cseInstruction
    split
    · rename_i dest callee args
      rw [if_neg fun hpure => hcall ⟨dest, callee, args, rfl, hpure⟩]
    · rfl

theorem execInst_pureCall {callee : String} (hpure : callee ∈ pureFns) (s : MState V W)
    (dest : LocalId) (args : List Operand) :
    execInst I.toInterp L s (.assign dest (.call callee args)) = .ok (writeLocal I.toInterp L s dest
      (I.pureFn callee (args.map (readOperand I.toInterp L s)))) := by
  simp only [execInst, evalRValue, RValue.mapOperands, RValue.mapAddressed, RValue.addressed,
    List.map_nil, I.rvalue_pure callee hpure]
  rfl

/-- One instruction and its replacement have one effect exactly when the merge is sound. -/
theorem execInst_cseInstruction_iff (seen : SeenCalls) (s : MState V W) (inst : Instruction) :
    execInst I.toInterp L s (cseInstruction pureFns seen inst).1 = execInst I.toInterp L s inst ↔
      MergeSound I L seen s inst := by
  obtain ⟨hkept, hnone⟩ | ⟨dest, callee, args, key, prev, rfl, hpure, hkey, hseen, hmerged⟩ :=
    cseInstruction_cases pureFns seen inst
  · refine iff_of_true (by rw [hkept]) ?_
    intro dest callee args key prev hinst hpure hkey hseen
    rw [hnone dest callee args key hinst hpure hkey] at hseen
    cases hseen
  · rw [hmerged, execInst_assign_use, execInst_pureCall I L hpure, Except.ok.injEq,
      (writeLocal_injective I.toInterp L s dest).eq_iff]
    constructor
    · intro heq dest' callee' args' key' prev' hinst _ hkey' hseen'
      cases hinst
      rw [hkey] at hkey'
      cases hkey'
      rw [hseen] at hseen'
      cases hseen'
      exact heq
    · intro hsound
      exact hsound dest callee args key prev rfl hpure hkey hseen

/-- **The exact condition.** The block and its image are in the same state after every number of
instructions exactly when every merge is sound. -/
theorem cse_lockstep_iff (seen : SeenCalls) (insts : List Instruction) (s : MState V W) :
    (∀ k, execInsts I.toInterp L ((cseInstructions pureFns seen insts).take k) s =
      execInsts I.toInterp L (insts.take k) s) ↔ MergesSound I L seen insts s := by
  induction insts generalizing seen s with
  | nil => exact iff_of_true (fun k => by cases k <;> rfl) trivial
  | cons inst insts ih =>
    rw [MergesSound, ← execInst_cseInstruction_iff]
    constructor
    · intro h
      have hone : execInst I.toInterp L s (cseInstruction pureFns seen inst).1 =
          execInst I.toInterp L s inst := by
        have h1 := h 1
        simp only [cseInstructions, List.take_succ_cons, List.take_zero, execInsts_cons] at h1
        have hbind : ∀ r : Except (Panic × W) (MState V W),
            r >>= execInsts I.toInterp L [] = r := by
          intro r
          cases r <;> rfl
        rwa [hbind, hbind] at h1
      refine ⟨hone, fun s' hs' => (ih _ s').mp fun k => ?_⟩
      have hk := h (k + 1)
      simp only [cseInstructions, List.take_succ_cons, execInsts_cons, hone, hs'] at hk
      exact hk
    · rintro ⟨hone, hrest⟩ k
      cases k with
      | zero => rfl
      | succ k =>
        simp only [cseInstructions, List.take_succ_cons, execInsts_cons, hone]
        cases hs' : execInst I.toInterp L s inst with
        | error e => rfl
        | ok s' => exact (ih _ s').mpr (hrest s' hs') k

end Semantics

/-! ## Merges nothing was written between -/

def OperandKey.locals : OperandKey → List LocalId
  | .local id => [id]
  | _ => []

/-- The locals among the arguments of a call. -/
def PureCallKey.locals (key : PureCallKey) : List LocalId := key.args.flatMap OperandKey.locals

/-- The key of an instruction that is a pure call. -/
def callKey (pureFns : List String) : Instruction → Option PureCallKey
  | .assign _ (.call callee args) => if callee ∈ pureFns then makeCallKey callee args else none
  | _ => none

variable {inst : Instruction}

theorem callKey_eq_some {pureFns : List String} (h : callKey pureFns inst = some key) :
    ∃ dest callee args,
      inst = .assign dest (.call callee args) ∧ callee ∈ pureFns ∧
      makeCallKey callee args = some key := by
  unfold callKey at h
  split at h
  · rename_i dest callee args
    split at h
    · rename_i hpure
      exact ⟨dest, callee, args, rfl, hpure, h⟩
    · cases h
  · cases h

/-- Instructions that leave the world alone, up to a resident destination. -/
def leavesWorld (pureFns : List String) : Instruction → Bool
  | .assign _ (.use _) | .nop | .debugLine _ => true
  | .assign _ (.call callee _) => callee ∈ pureFns
  | _ => false

/-- Whether an instruction may change a local: it is the destination, or resident and the
instruction acts on the world. -/
def mayWrite {A : Type} (L : Layout A) (pureFns : List String) (inst : Instruction) (x : LocalId) :
    Bool :=
  inst.dest == some x || (L.resident x && !leavesWorld pureFns inst)

/-- The entries of the table whose locals have not been written since they were recorded. A call
that overwrites one of its own arguments never becomes live. -/
def liveAfter {A : Type} (L : Layout A) (pureFns : List String) (seen live : SeenCalls)
    (inst : Instruction) : SeenCalls :=
  let kept := live.filter fun e => (e.2 :: e.1.locals).all fun x => !mayWrite L pureFns inst x
  match callKey pureFns inst, inst.dest with
  | some key, some dest =>
    if seen.get key = none ∧ dest ∉ key.locals then (key, dest) :: kept else kept
  | _, _ => kept

/-- Every merge uses an entry that is still live. -/
def NoStaleMerge {A : Type} (L : Layout A) (pureFns : List String) :
    SeenCalls → SeenCalls → List Instruction → Prop
  | _, _, [] => True
  | seen, live, inst :: insts =>
    (∀ key prev, callKey pureFns inst = some key → seen.get key = some prev →
      (key, prev) ∈ live) ∧
    NoStaleMerge L pureFns (cseInstruction pureFns seen inst).2
      (liveAfter L pureFns seen live inst) insts

section Live

variable {V W A : Type} {pureFns : List String} (I : PureInterp V W A pureFns) (L : Layout A)

/-- The entry's local holds the value of its call on the current arguments. -/
def EntryHolds (s : MState V W) (e : PureCallKey × LocalId) : Prop :=
  ∀ callee args, makeCallKey callee args = some e.1 →
    readLocal I.toInterp L s e.2 = I.pureFn callee (args.map (readOperand I.toInterp L s))

variable {s s' : MState V W}

theorem execInst_leavesWorld (h : execInst I.toInterp L s inst = .ok s')
    (hleaves : leavesWorld pureFns inst = true) :
    s' = s ∨ ∃ dest v, inst.dest = some dest ∧ s' = writeLocal I.toInterp L s dest v := by
  cases inst with
  | assign dest rv =>
    cases rv with
    | use op =>
      rw [execInst_assign_use, Except.ok.injEq] at h
      exact .inr ⟨dest, _, rfl, h.symm⟩
    | call callee args =>
      rw [execInst_pureCall I L (of_decide_eq_true hleaves), Except.ok.injEq] at h
      exact .inr ⟨dest, _, rfl, h.symm⟩
    | _ => cases hleaves
  | nop | debugLine line =>
    cases h
    exact .inl rfl
  | _ => cases hleaves

/-- A local an instruction may not write keeps its value. -/
theorem readLocal_execInst (h : execInst I.toInterp L s inst = .ok s') {x : LocalId}
    (hx : mayWrite L pureFns inst x = false) :
    readLocal I.toInterp L s' x = readLocal I.toInterp L s x := by
  simp only [mayWrite, Bool.or_eq_false_iff, beq_eq_false_iff_ne, ne_eq, Bool.and_eq_false_imp,
    Bool.not_eq_false'] at hx
  obtain ⟨hdest, hworld⟩ := hx
  by_cases hres : L.resident x
  · obtain rfl | ⟨dest, v, hd, rfl⟩ := execInst_leavesWorld I L h (hworld hres)
    · rfl
    · refine readLocal_writeLocal_of_ne _ _ _ ?_ v
      rintro rfl
      exact hdest hd
  · simp only [readLocal, hres, Bool.false_eq_true, if_false]
    exact regs_execInst I.toInterp L h hdest

/-- The value of an argument whose local is kept. -/
theorem readOperand_execInst (h : execInst I.toInterp L s inst = .ok s') {op : Operand}
    (hop : ∀ x ∈ op.locals, mayWrite L pureFns inst x = false) :
    readOperand I.toInterp L s' op = readOperand I.toInterp L s op := by
  cases op with
  | «local» x => exact readLocal_execInst I L h (hop x (by simp [Operand.locals]))
  | constant c => rfl

/-- The locals of a key are those of the arguments. -/
theorem mem_locals_of_makeCallKey {callee : String} (h : makeCallKey callee args = some key)
    {op : Operand} (hop : op ∈ args) {x : LocalId} (hx : x ∈ op.locals) : x ∈ key.locals := by
  obtain ⟨keys, hkeys, rfl⟩ := Option.map_eq_some_iff.mp h
  obtain ⟨k, hk, hmem⟩ : ∃ k, operandToKey op = some k ∧ k ∈ keys := by
    clear h
    induction args generalizing keys with
    | nil => cases hop
    | cons a as ih =>
      simp only [List.mapM_cons, Option.bind_eq_bind, Option.bind_eq_some_iff, Option.pure_def,
        Option.some.injEq] at hkeys
      obtain ⟨k, hk, ks, hks, rfl⟩ := hkeys
      obtain rfl | hop := List.mem_cons.mp hop
      · exact ⟨k, hk, List.mem_cons_self⟩
      · obtain ⟨k', hk', hmem⟩ := ih hop ks hks
        exact ⟨k', hk', List.mem_cons_of_mem k hmem⟩
  refine List.mem_flatMap.mpr ⟨k, hmem, ?_⟩
  cases op with
  | «local» y =>
    cases hk
    exact hx
  | constant c => cases hx

/-- An entry whose locals are kept still holds. -/
theorem EntryHolds.execInst {e : PureCallKey × LocalId} (he : EntryHolds I L s e)
    (h : execInst I.toInterp L s inst = .ok s')
    (hkept : ∀ x ∈ e.2 :: e.1.locals, mayWrite L pureFns inst x = false) : EntryHolds I L s' e := by
  intro callee args hkey
  have hargs : args.map (readOperand I.toInterp L s') = args.map (readOperand I.toInterp L s) := by
    refine List.map_congr_left fun op hop => readOperand_execInst I L h fun x hx => ?_
    exact hkept x (List.mem_cons_of_mem _ (mem_locals_of_makeCallKey hkey hop hx))
  rw [readLocal_execInst I L h (hkept e.2 List.mem_cons_self), hargs]
  exact he callee args hkey

/-- A call that keeps its arguments establishes its entry. -/
theorem EntryHolds.of_call {callee : String} {dest : LocalId} (hpure : callee ∈ pureFns)
    (hkey : makeCallKey callee args = some key) (hdest : dest ∉ key.locals)
    (h : Kryos.execInst I.toInterp L s (.assign dest (.call callee args)) = .ok s') :
    EntryHolds I L s' (key, dest) := by
  rw [execInst_pureCall I L hpure, Except.ok.injEq] at h
  subst h
  intro callee' args' hkey'
  obtain ⟨rfl, rfl⟩ := makeCallKey_inj hkey' hkey
  rw [readLocal_writeLocal_self]
  congr 1
  refine List.map_congr_left fun op hop => ?_
  cases op with
  | «local» x =>
    refine (readLocal_writeLocal_of_ne _ _ _ ?_ _).symm
    rintro rfl
    exact hdest (mem_locals_of_makeCallKey hkey hop (by simp [Operand.locals]))
  | constant c => rfl

/-- Live entries hold, and stay so along the block. -/
theorem entryHolds_liveAfter {seen live : SeenCalls} (hlive : ∀ e ∈ live, EntryHolds I L s e)
    (h : execInst I.toInterp L s inst = .ok s') :
    ∀ e ∈ liveAfter L pureFns seen live inst, EntryHolds I L s' e := by
  have hkept : ∀ e ∈ live.filter fun e => (e.2 :: e.1.locals).all fun x =>
      !mayWrite L pureFns inst x, EntryHolds I L s' e := by
    intro e he
    obtain ⟨hmem, hall⟩ := List.mem_filter.mp he
    refine (hlive e hmem).execInst I L h fun x hx => ?_
    simpa using List.all_eq_true.mp hall x hx
  intro e he
  unfold liveAfter at he
  split at he
  · rename_i key dest hkey hdest
    split at he
    · rename_i hcond
      obtain rfl | he := List.mem_cons.mp he
      · obtain ⟨d, callee, args, rfl, hpure, hck⟩ := callKey_eq_some hkey
        cases hdest
        exact EntryHolds.of_call I L hpure hck hcond.2 h
      · exact hkept e he
    · exact hkept e he
  · exact hkept e he

/-- Without stale merges every merge is sound. -/
theorem NoStaleMerge.mergesSound {seen live : SeenCalls} {insts : List Instruction}
    (hstale : NoStaleMerge L pureFns seen live insts) (hlive : ∀ e ∈ live, EntryHolds I L s e) :
    MergesSound I L seen insts s := by
  induction insts generalizing seen live s with
  | nil => trivial
  | cons inst insts ih =>
    obtain ⟨hmerge, hrest⟩ := hstale
    refine ⟨?_, fun s' hs' => ih hrest (entryHolds_liveAfter I L hlive hs')⟩
    rintro dest callee args key prev rfl hpure hkey hseen
    have hck : callKey pureFns (.assign dest (.call callee args)) = some key := by
      rw [callKey, if_pos hpure, hkey]
    exact hlive _ (hmerge key prev hck hseen) callee args hkey

end Live

/-! ## Blocks -/

/-- A block after the pass. -/
def cseBlock (pureFns : List String) (b : BasicBlock) : BasicBlock :=
  { b with instructions := cseInstructions pureFns [] b.instructions }

theorem length_cseInstructions (pureFns : List String) (seen : SeenCalls)
    (insts : List Instruction) : (cseInstructions pureFns seen insts).length = insts.length := by
  induction insts generalizing seen with
  | nil => rfl
  | cons inst insts ih => rw [cseInstructions, List.length_cons, List.length_cons, ih]

/-- **Pure-call elimination on a block.** When no merge is stale, the block after the pass ends in
the state the block before it ends in, or panics as it does; so every local and every operand of the
terminator has the same value. For a given interpretation and initial valuation, the two agree after
every instruction exactly when each recorded local still holds the value of the merged call. -/
theorem cse_pure_calls_agrees {V W A : Type} {pureFns : List String}
    (I : PureInterp V W A pureFns) (L : Layout A) (b : BasicBlock) (s : MState V W) :
    (NoStaleMerge L pureFns [] [] b.instructions →
      execInsts I.toInterp L (cseBlock pureFns b).instructions s =
        execInsts I.toInterp L b.instructions s ∧
      (cseBlock pureFns b).terminator = b.terminator) ∧
    ((∀ k, execInsts I.toInterp L ((cseBlock pureFns b).instructions.take k) s =
        execInsts I.toInterp L (b.instructions.take k) s) ↔
      MergesSound I L [] b.instructions s) := by
  refine ⟨fun hstale => ⟨?_, rfl⟩, cse_lockstep_iff I L [] b.instructions s⟩
  have hsound := hstale.mergesSound I L (s := s) fun e he => by cases he
  have hall := (cse_lockstep_iff I L [] b.instructions s).mpr hsound b.instructions.length
  rwa [List.take_length, List.take_of_length_le (length_cseInstructions pureFns [] _).le] at hall

/-! ### Two blocks -/

theorem load_update_self (w : ℕ → I64) (a : ℕ) (v : I64) : Function.update w a v a = v :=
  Function.update_self a v w

theorem load_update_of_ne (w : ℕ → I64) {a b : ℕ} (v : I64) (h : a ≠ b) :
    Function.update w a v b = w b :=
  Function.update_of_ne h.symm v w

/-- Integers in a flat memory; the only call is the identity, every other r-value is zero. -/
def idInterp : PureInterp I64 (ℕ → I64) ℕ ["f"] where
  const := fun c => match c with
    | .int v => v
    | _ => 0
  truthy := fun v => v != 0
  asInt := id
  load := fun w a => w a
  store := fun w a v => Function.update w a v
  load_store_self := load_update_self
  load_store_of_ne := load_update_of_ne
  rvalue := fun rv _ w => match rv with
    | .use v => .ok (v, w)
    | .call _ args => .ok (args.headD 0, w)
    | _ => .ok (0, w)
  rvalue_use := fun _ _ => rfl
  action := fun _ w => .ok (0, w)
  pureFn := fun _ args => args.headD 0
  rvalue_pure := fun _ _ _ _ => rfl

/-- No local is resident. -/
def noResidents : Layout ℕ where
  resident := fun _ => false
  place := id
  place_injective := Function.injective_id

/-- `_1 = f(_0); _2 = f(_0); return _2` is merged soundly. -/
theorem cse_pure_calls_agrees_twice :
    execInsts idInterp.toInterp noResidents
        (cseBlock ["f"] ⟨0, [.assign 1 (.call "f" [.local 0]), .assign 2 (.call "f" [.local 0])],
          .ret (some (.local 2))⟩).instructions ⟨fun _ => 5, fun _ => 0⟩ =
      execInsts idInterp.toInterp noResidents
        [.assign 1 (.call "f" [.local 0]), .assign 2 (.call "f" [.local 0])]
        ⟨fun _ => 5, fun _ => 0⟩ := by
  refine ((cse_pure_calls_agrees idInterp noResidents
    ⟨0, [.assign 1 (.call "f" [.local 0]), .assign 2 (.call "f" [.local 0])],
      .ret (some (.local 2))⟩ _).1 ?_).1
  refine ⟨?_, ?_, trivial⟩
  · rintro key prev - hseen
    cases hseen
  · rintro key prev hkey hseen
    cases hkey
    cases hseen
    decide

/-- `_1 = f(_0); _0 = 7; _2 = f(_0); return _2`: from `_0 = 5` the block leaves `7` in `_2`, the
block after the pass `5`. -/
theorem cse_merges_after_redefinition :
    ¬∀ s : MState I64 (ℕ → I64), execInsts idInterp.toInterp noResidents
        (cseBlock ["f"] ⟨0, [.assign 1 (.call "f" [.local 0]), .assign 0 (.use (.constant (.int 7))),
          .assign 2 (.call "f" [.local 0])], .ret (some (.local 2))⟩).instructions s =
      execInsts idInterp.toInterp noResidents
        [.assign 1 (.call "f" [.local 0]), .assign 0 (.use (.constant (.int 7))),
          .assign 2 (.call "f" [.local 0])] s := by
  intro h
  have h5 := h ⟨fun _ => 5, fun _ => 0⟩
  have h2 : (5 : I64) = 7 := congrArg (fun r => match r with
    | Except.ok s => s.regs 2
    | Except.error _ => 0) h5
  exact absurd h2 (by decide)

end Kryos
