import Mathlib
import Kryos.Lib.Simulation
import Kryos.Mir.Cfg
import Kryos.Mir.Rename

/-!
# Activations and calls

The meaning of a module whose functions call each other: a stack of activations over one world.
Calls to functions the module does not define are r-values like any other, and so are calls through
pointers and trait objects; the interpretation says what they do.

A local is a register of its activation until its address is taken. From then on it lives in memory
under an address of its own, handed out in the order in which addresses are first taken, and never
handed out again. So every activation has its own locals, also the address-taken ones, and nothing
depends on where the stack is.

## Main definitions

* `Frame`, `Config`, `step`, `start` — the machine
* `DefinedBeforeUse` — no local is used before it is written, on any path
-/

namespace Kryos

/-! ## Activations -/

/-- The locals of an activation: registers, and the addresses of those in memory. -/
structure Activation (V : Type) where
  regs : LocalId → V
  slots : LocalId → Option ℕ

/-- The world, and the first address that is not in use. -/
@[ext] structure Memory (W : Type) where
  world : W
  next : ℕ

def Activation.places {V : Type} (a : Activation V) : Places ℕ where
  resident x := (a.slots x).isSome
  place x := (a.slots x).getD 0

/-- A place in a function: a block and the number of instructions left in it. -/
abbrev Site := BlockId × ℕ

/-- An activation that has a place in a function. `calls` is history and read by no step: where the
calls that have returned were made, and which locals of the callee had got an address. -/
structure Frame (V : Type) where
  fn : MirFunction
  block : BlockId
  rest : List Instruction
  term : Terminator
  act : Activation V
  calls : List (Site × (LocalId → Option ℕ))

/-- Where a frame stands. -/
def Frame.site {V : Type} (fr : Frame V) : Site := (fr.block, fr.rest.length)

/-- The running activation and the waiting ones, each with the local its call assigns. -/
structure Config (V W : Type) where
  top : Frame V
  stack : List (Frame V × LocalId)
  mem : Memory W

/-- How a run ends. A bare `Return` of a function with a result is a trap. -/
inductive Final (V W : Type)
  | returned (value : Option V) (world : W)
  | unreachable (world : W)
  | panicked (panic : Panic) (world : W)

/-- The function a module defines under a name, with its entry block. A function without blocks is
external. -/
def MirModule.findBody (M : MirModule) (name : String) : Option (MirFunction × BasicBlock) := do
  let f ← M.functions.find? fun f => f.name == name
  let b ← f.blocks.head?
  return (f, b)

/-- The call of a function of the module that an instruction is. -/
def MirModule.callOf (M : MirModule) :
    Instruction → Option (LocalId × MirFunction × BasicBlock × List Operand)
  | .assign dest (.call func args) => (M.findBody func).map fun fb => (dest, fb.1, fb.2, args)
  | _ => none

section Steps

variable {V W : Type} (I : Interp V W ℕ)

/-- The state an instruction of an activation sees. -/
def Activation.state (a : Activation V) (m : Memory W) : MState V W := ⟨a.regs, m.world⟩

def Activation.read (a : Activation V) (m : Memory W) (op : Operand) : V :=
  readOperand I a.places (a.state m) op

/-- Move a register to memory, under a new address. -/
def settle (am : Activation V × Memory W) (x : LocalId) : Activation V × Memory W :=
  match am.1.slots x with
  | some _ => am
  | none =>
    (⟨am.1.regs, Function.update am.1.slots x (some am.2.next)⟩,
      ⟨I.store am.2.world am.2.next (am.1.regs x), am.2.next + 1⟩)

/-- Locals whose address is taken are moved to memory first. -/
def settleAll (xs : List LocalId) (am : Activation V × Memory W) : Activation V × Memory W :=
  xs.foldl (settle I) am

/-- Execute an instruction other than a call of a function of the module. -/
def execIn (am : Activation V × Memory W) (inst : Instruction) :
    Except (Panic × W) (Activation V × Memory W) :=
  let am' := settleAll I inst.addressed am
  (execInst I am'.1.places (am'.1.state am'.2) inst).map fun s =>
    (⟨s.regs, am'.1.slots⟩, ⟨s.world, am'.2.next⟩)

/-- Arguments are bound to the parameters in order; other locals hold no value yet. -/
def bindParams (xs : List LocalId) (vs : List V) : LocalId → V :=
  (xs.zip vs).foldl (fun regs p => Function.update regs p.1 p.2) fun _ => I.const .none

/-- A new activation of `f`, about to execute its entry block `b`. -/
def Frame.enter (f : MirFunction) (b : BasicBlock) (args : List V) : Frame V :=
  ⟨f, b.id, b.instructions, b.terminator, ⟨bindParams I f.paramLocals args, fun _ => none⟩, []⟩

/-- Where a frame continues in block `b`. -/
def Frame.goto (fr : Frame V) (b : BasicBlock) : Frame V :=
  { fr with block := b.id, rest := b.instructions, term := b.terminator }

/-- What a frame at a `Return` hands to its caller: nothing if the function is void. -/
def Frame.result (fr : Frame V) (m : Memory W) : Option (Option V) :=
  match fr.term with
  | .ret op =>
    if fr.fn.isVoid then some none else op.map fun op => some (fr.act.read I m op)
  | _ => none

/-- Store a value in a local of an activation. -/
def Activation.write (a : Activation V) (m : Memory W) (dest : LocalId) (v : V) :
    Activation V × Memory W :=
  let s := writeLocal I a.places (a.state m) dest v
  (⟨s.regs, a.slots⟩, ⟨s.world, m.next⟩)

/-- Store what a callee returned, if anything: a void callee leaves the destination as it is. -/
def Activation.receive (a : Activation V) (m : Memory W) (dest : LocalId) :
    Option V → Activation V × Memory W
  | none => (a, m)
  | some v => a.write I m dest v

/-- Continue after a call has returned `value`. -/
def Frame.resume (fr : Frame V) (callee : Activation V) (dest : LocalId) (value : Option V)
    (m : Memory W) : Frame V × Memory W :=
  let am := fr.act.receive I m dest value
  ({ fr with act := am.1, calls := (fr.site, callee.slots) :: fr.calls }, am.2)

/-- One step of a module. -/
def step (M : MirModule) (c : Config V W) : Config V W ⊕ Final V W :=
  match c.top.rest with
  | inst :: rest =>
    match M.callOf inst with
    | some (dest, f, b, args) =>
      .inl ⟨Frame.enter I f b (args.map (c.top.act.read I c.mem)),
        ({ c.top with rest := rest }, dest) :: c.stack, c.mem⟩
    | none =>
      match execIn I (c.top.act, c.mem) inst with
      | .error (p, w) => .inr (.panicked p w)
      | .ok (a, m) => .inl ⟨{ c.top with rest := rest, act := a }, c.stack, m⟩
  | [] =>
    match nextBlock I c.top.act.places (c.top.act.state c.mem) c.top.term with
    | some t =>
      match c.top.fn.findBlock t with
      | some b => .inl ⟨c.top.goto b, c.stack, c.mem⟩
      | none => .inr (.unreachable c.mem.world)
    | none =>
      match c.top.result I c.mem, c.stack with
      | none, _ => .inr (.unreachable c.mem.world)
      | some v, [] => .inr (.returned v c.mem.world)
      | some v, (fr, dest) :: stack =>
        .inl ⟨(fr.resume I c.top.act dest v c.mem).1, stack,
          (fr.resume I c.top.act dest v c.mem).2⟩

/-- A call of a function of the module from outside. -/
def start (M : MirModule) (name : String) (args : List V) (m : Memory W) : Option (Config V W) :=
  (M.findBody name).map fun fb => ⟨Frame.enter I fb.1 fb.2 args, [], m⟩

end Steps

section StepLemmas

variable {V W : Type} {I : Interp V W ℕ} {M : MirModule}

theorem findBody_eq_some {name : String} {f : MirFunction} {b : BasicBlock}
    (h : M.findBody name = some (f, b)) :
    f ∈ M.functions ∧ f.name = name ∧ f.blocks.head? = some b := by
  simp only [MirModule.findBody, Option.bind_eq_bind, Option.pure_def, Option.bind_eq_some_iff,
    Option.some.injEq, Prod.mk.injEq] at h
  obtain ⟨g, hg, b', hb', rfl, rfl⟩ := h
  exact ⟨List.mem_of_find?_eq_some hg, by simpa using List.find?_some hg, hb'⟩

theorem callOf_eq_some {inst : Instruction} {dest : LocalId} {f : MirFunction} {b : BasicBlock}
    {args : List Operand} (h : M.callOf inst = some (dest, f, b, args)) :
    ∃ name, inst = .assign dest (.call name args) ∧ M.findBody name = some (f, b) := by
  simp only [MirModule.callOf] at h
  split at h
  · rename_i dest' name args'
    obtain ⟨⟨f', b'⟩, hbody, heq⟩ := Option.map_eq_some_iff.mp h
    simp only [Prod.mk.injEq] at heq
    obtain ⟨rfl, rfl, rfl, rfl⟩ := heq
    exact ⟨name, rfl, hbody⟩
  · cases h

/-- A void function returns nothing, any other a value. -/
theorem Frame.result_cases {fr : Frame V} {m : Memory W} {v : Option V}
    (h : fr.result I m = some v) :
    fr.fn.isVoid = true ∧ v = none ∨ fr.fn.isVoid = false ∧ ∃ x, v = some x := by
  simp only [Frame.result] at h
  split at h <;> try contradiction
  split at h
  · rename_i hvoid
    exact .inl ⟨hvoid, (Option.some.inj h).symm⟩
  · rename_i hvoid
    obtain ⟨op, _, rfl⟩ := Option.map_eq_some_iff.mp h
    exact .inr ⟨Bool.eq_false_iff.mpr hvoid, _, rfl⟩

theorem nextBlock_of_result {fr : Frame V} {m : Memory W} {v : Option V}
    (h : fr.result I m = some v) :
    nextBlock I fr.act.places (fr.act.state m) fr.term = none := by
  simp only [Frame.result] at h
  split at h
  · rename_i hterm
    rw [hterm]
    rfl
  · cases h

/-- Returning to the caller, or from the run. -/
theorem step_of_result {fr : Frame V} {m : Memory W} {v : Option V} (hrest : fr.rest = [])
    (h : fr.result I m = some v) (stack : List (Frame V × LocalId)) :
    step I M ⟨fr, stack, m⟩ = match stack with
      | [] => .inr (.returned v m.world)
      | (caller, dest) :: stack =>
        .inl ⟨(caller.resume I fr.act dest v m).1, stack,
          (caller.resume I fr.act dest v m).2⟩ := by
  simp only [step, hrest, nextBlock_of_result h, h]
  rcases stack with _ | _ <;> rfl

theorem step_to_caller {c : Config V W} {v : Option V} (hrest : c.top.rest = [])
    (h : c.top.result I c.mem = some v) {caller : Frame V} {dest : LocalId}
    {below : List (Frame V × LocalId)} (hstack : c.stack = (caller, dest) :: below) :
    step I M c = .inl ⟨(caller.resume I c.top.act dest v c.mem).1, below,
      (caller.resume I c.top.act dest v c.mem).2⟩ :=
  (step_of_result hrest h c.stack).trans (by rw [hstack])

end StepLemmas

/-! ## Locals are defined before use -/

/-- What a call of `f` writes: nothing if `f` is void. -/
def MirFunction.writes (f : MirFunction) (dest : LocalId) : List LocalId :=
  if f.isVoid then [] else [dest]

/-- The locals an instruction leaves written. -/
def MirModule.defs (M : MirModule) (inst : Instruction) : List LocalId :=
  match M.callOf inst with
  | some (dest, f, _, _) => f.writes dest
  | none => inst.dest.toList

/-- The operands whose values a terminator needs. A void function ignores what it returns. -/
def MirFunction.needed (f : MirFunction) : Terminator → List Operand
  | .ret op => if f.isVoid then [] else op.toList
  | term => term.reads

def Terminator.targets : Terminator → List BlockId
  | .ret _ | .unreachable => []
  | .goto t => [t]
  | .branch _ t e => [t, e]
  | .switch _ targets d => targets.map Prod.snd ++ [d]

section Definedness

variable (M : MirModule) (f : MirFunction)

/-- The locals defined after a list of instructions. -/
def definedAfter (D : Set LocalId) (insts : List Instruction) : Set LocalId :=
  insts.foldl (fun D inst => D ∪ {x | x ∈ M.defs inst}) D

/-- Some path from the entry leads to block `id` with exactly the locals of `D` defined. -/
inductive PathDefs : BlockId → Set LocalId → Prop
  | entry {b : BasicBlock} (h : f.blocks.head? = some b) : PathDefs b.id {x | x ∈ f.paramLocals}
  | next {id id' : BlockId} {b : BasicBlock} {D : Set LocalId} (h : PathDefs id D)
    (hb : f.findBlock id = some b) (ht : id' ∈ b.terminator.targets) :
    PathDefs id' (definedAfter M D b.instructions)

/-- Code that starts with the locals of `D` uses defined locals only. -/
def UsesDefined : Set LocalId → List Instruction → Terminator → Prop
  | D, [], term => ∀ op ∈ f.needed term, ∀ x ∈ op.locals, x ∈ D
  | D, inst :: rest, term =>
    (∀ x ∈ inst.uses, x ∈ D) ∧ UsesDefined (D ∪ {x | x ∈ M.defs inst}) rest term

instance decidableUsesDefined : (D : Set LocalId) → [DecidablePred (· ∈ D)] →
    (insts : List Instruction) → (term : Terminator) → Decidable (UsesDefined M f D insts term)
  | D, _, [], term => inferInstanceAs (Decidable (∀ op ∈ f.needed term, ∀ x ∈ op.locals, x ∈ D))
  | D, _, inst :: rest, term =>
    have := decidableUsesDefined (D ∪ {x | x ∈ M.defs inst}) rest term
    inferInstanceAs (Decidable (_ ∧ _))

/-- On every path, every local is written before it is used. -/
def DefinedBeforeUse : Prop :=
  ∀ id D b, PathDefs M f id D → f.findBlock id = some b →
    UsesDefined M f D b.instructions b.terminator

/-- The rest of a block, together with what holds at the blocks it leads to. -/
structure CodeDefined (D : Set LocalId) (rest : List Instruction) (term : Terminator) : Prop where
  uses : UsesDefined M f D rest term
  targets : ∀ id ∈ term.targets, PathDefs M f id (definedAfter M D rest)

end Definedness

section Definedness

variable {M : MirModule} {f : MirFunction} {D : Set LocalId}

theorem CodeDefined.of_findBlock (hf : DefinedBeforeUse M f) {id : BlockId} {b : BasicBlock}
    (hid : PathDefs M f id D) (hb : f.findBlock id = some b) :
    CodeDefined M f D b.instructions b.terminator :=
  ⟨hf id D b hid hb, fun _ ht => hid.next hb ht⟩

variable {term : Terminator}

theorem CodeDefined.tail {inst : Instruction} {rest : List Instruction}
    (h : CodeDefined M f D (inst :: rest) term) :
    CodeDefined M f (D ∪ {x | x ∈ M.defs inst}) rest term :=
  ⟨h.uses.2, h.targets⟩

theorem subset_definedAfter (insts : List Instruction) : D ⊆ definedAfter M D insts := by
  induction insts generalizing D with
  | nil => exact subset_rfl
  | cons inst insts ih => exact Set.subset_union_left.trans ih

theorem UsesDefined.mono {D' : Set LocalId} (h : D ⊆ D') {insts : List Instruction}
    (hu : UsesDefined M f D insts term) : UsesDefined M f D' insts term := by
  induction insts generalizing D D' with
  | nil => exact fun op hop x hx => h (hu op hop x hx)
  | cons inst insts ih =>
    exact ⟨fun x hx => h (hu.1 x hx), ih (Set.union_subset_union_left _ h) hu.2⟩

/-- The parameters are defined everywhere. -/
theorem PathDefs.params_subset {id : BlockId} (h : PathDefs M f id D) :
    {x | x ∈ f.paramLocals} ⊆ D := by
  induction h with
  | entry => exact subset_rfl
  | next _ _ _ ih => exact ih.trans (subset_definedAfter _)

/-- It is enough that each block uses parameters and locals it has written itself. -/
theorem definedBeforeUse_of_params
    (h : ∀ b ∈ f.blocks, UsesDefined M f {x | x ∈ f.paramLocals} b.instructions b.terminator) :
    DefinedBeforeUse M f := fun _ _ b hpath hb =>
  (h b (List.mem_of_find?_eq_some hb)).mono hpath.params_subset

/-- Frames at the same terminator that read the needed operands alike return alike … -/
theorem Frame.result_congr {V W : Type} {I : Interp V W ℕ} {fr fr' : Frame V} {m m' : Memory W}
    (hvoid : fr'.fn.isVoid = fr.fn.isVoid) (hterm : fr'.term = fr.term)
    (hread : ∀ op ∈ fr.fn.needed fr.term, fr'.act.read I m' op = fr.act.read I m op) :
    fr'.result I m' = fr.result I m := by
  simp only [Frame.result, hterm, hvoid]
  rcases hret : fr.term with (_ | op) | _ | _ | _ | _ <;> try rfl
  by_cases hv : fr.fn.isVoid = true
  · simp only [hv, if_true]
  · have hop := hread op (by simp [hret, MirFunction.needed, hv])
    simp only [hv, Bool.false_eq_true, if_false, Option.map_some, hop]

/-- … and continue alike. -/
theorem nextBlock_congr_needed {V W : Type} {I : Interp V W ℕ} {fr fr' : Frame V}
    {m m' : Memory W} (hterm : fr'.term = fr.term)
    (hread : ∀ op ∈ fr.fn.needed fr.term, fr'.act.read I m' op = fr.act.read I m op) :
    nextBlock I fr'.act.places (fr'.act.state m') fr'.term =
      nextBlock I fr.act.places (fr.act.state m) fr.term := by
  rw [hterm]
  rcases hret : fr.term with _ | _ | _ | _ | _
  case ret => rfl
  all_goals exact nextBlock_congr I _ fun op hop => hread op (by rw [hret]; exact hop)

theorem nextBlock_mem_targets {V W A : Type} {I : Interp V W A} {L : Places A} {s : MState V W}
    {id : BlockId} (h : nextBlock I L s term = some id) : id ∈ term.targets := by
  rcases term with _ | t | ⟨cond, t, e⟩ | ⟨v, targets, default⟩ | _
  case ret | unreachable => cases h
  case goto => exact List.mem_singleton.mpr (Option.some.inj h).symm
  case branch =>
    simp only [nextBlock, Option.some.injEq] at h
    subst h
    split <;> simp [Terminator.targets]
  case switch =>
    simp only [nextBlock, Option.some.injEq] at h
    subst h
    simp only [Terminator.targets, List.mem_append, List.mem_singleton, List.mem_map]
    rcases hfind : targets.find? fun ct => ct.1 == I.asInt (readOperand I L s v) with _ | ct
    · exact .inr (by rw [hfind]; rfl)
    · exact .inl ⟨ct, List.mem_of_find?_eq_some hfind, by rw [hfind]; rfl⟩

end Definedness

/-! ## What an instruction leaves alone -/

section Frame

variable {V W : Type} {I : Interp V W ℕ}

theorem settleAll_frame (xs : List LocalId) (am : Activation V × Memory W) :
    (settleAll I xs am).1.regs = am.1.regs ∧
      ∀ x ∉ xs, (settleAll I xs am).1.slots x = am.1.slots x := by
  induction xs generalizing am with
  | nil => exact ⟨rfl, fun _ _ => rfl⟩
  | cons y xs ih =>
    have hstep : (settle I am y).1.regs = am.1.regs ∧
        ∀ x, x ≠ y → (settle I am y).1.slots x = am.1.slots x := by
      simp only [settle]
      split
      · exact ⟨rfl, fun _ _ => rfl⟩
      · exact ⟨rfl, fun x hx => Function.update_of_ne hx _ _⟩
    obtain ⟨hregs, hslots⟩ := ih (settle I am y)
    refine ⟨hregs.trans hstep.1, fun x hx => ?_⟩
    rw [List.mem_cons, not_or] at hx
    exact (hslots x hx.2).trans (hstep.2 x hx.1)

/-- Registers change at the destination only, addresses where they are taken only. -/
theorem execIn_frame {a b : Activation V} {m n : Memory W} {inst : Instruction}
    (h : execIn I (a, m) inst = .ok (b, n)) :
    (∀ x, inst.dest ≠ some x → b.regs x = a.regs x) ∧
      ∀ x ∉ inst.addressed, b.slots x = a.slots x := by
  obtain ⟨hregs, hslots⟩ := settleAll_frame (I := I) inst.addressed (a, m)
  simp only [execIn] at h
  rcases hexec : execInst I (settleAll I inst.addressed (a, m)).1.places
    ((settleAll I inst.addressed (a, m)).1.state (settleAll I inst.addressed (a, m)).2) inst
    with e | s
  · rw [hexec] at h
    cases h
  · rw [hexec] at h
    cases h
    refine ⟨fun x hx => ?_, hslots⟩
    exact (regs_execInst I _ hexec hx).trans (congrFun hregs x)

end Frame

/-! ## Renamed activations -/

/-- The second activation holds the values of the first under renamed locals: those of the
registers in `D`, and where the locals in `K` are. -/
structure Renames {V : Type} (ρ : LocalId → LocalId) (D K : Set LocalId) (a a' : Activation V) :
    Prop where
  regs : ∀ x ∈ D, a.slots x = none → a'.regs (ρ x) = a.regs x
  slots : ∀ x ∈ K, a'.slots (ρ x) = a.slots x

variable {x : LocalId}

section Renamed

variable {V W : Type} (I : Interp V W ℕ) {ρ : LocalId → LocalId} {D K : Set LocalId}
variable {a a' : Activation V} {m : Memory W}

theorem Renames.place (h : Renames ρ D K a a') (hx : x ∈ K) :
    a'.places.place (ρ x) = a.places.place x := by
  simp only [Activation.places, h.slots x hx]

theorem Renames.read (h : Renames ρ D K a a') {op : Operand}
    (hop : ∀ x ∈ op.locals, x ∈ D ∧ x ∈ K) : a'.read I m (op.rename ρ) = a.read I m op := by
  rcases op with x | c
  · obtain ⟨hD, hK⟩ := hop x (List.mem_singleton.mpr rfl)
    simp only [Activation.read, Operand.rename, readOperand, readLocal, Activation.places,
      Activation.state, h.slots x hK]
    by_cases hs : a.slots x = none
    · simp [hs, h.regs x hD hs]
    · simp [Option.isSome_iff_ne_none.mpr hs]
  · rfl

/-- Taking an address of a renamed local. -/
theorem Renames.settle (hρ : Function.Injective ρ) (h : Renames ρ D K a a') {x : LocalId}
    (hD : x ∈ D) (hK : x ∈ K) :
    (settle I (a', m) (ρ x)).2 = (settle I (a, m) x).2 ∧
      Renames ρ D K (settle I (a, m) x).1 (settle I (a', m) (ρ x)).1 := by
  rcases hs : a.slots x with _ | addr
  · have hs' : a'.slots (ρ x) = none := (h.slots x hK).trans hs
    simp only [Kryos.settle, hs, hs', h.regs x hD hs, true_and]
    refine ⟨fun y hy hnone => ?_, fun y hy => ?_⟩
    · by_cases hyx : y = x
      · subst hyx
        simp at hnone
      · simp only [Function.update_of_ne hyx] at hnone
        exact h.regs y hy hnone
    · by_cases hyx : y = x
      · subst hyx
        simp
      · simp only [Function.update_of_ne hyx, Function.update_of_ne (hρ.ne hyx)]
        exact h.slots y hy
  · have hs' : a'.slots (ρ x) = some addr := (h.slots x hK).trans hs
    simp only [Kryos.settle, hs, hs', true_and]
    exact h

theorem Renames.settleAll (hρ : Function.Injective ρ) {xs : List LocalId}
    (hxs : ∀ x ∈ xs, x ∈ D ∧ x ∈ K) (h : Renames ρ D K a a') :
    (settleAll I (xs.map ρ) (a', m)).2 = (settleAll I xs (a, m)).2 ∧
      Renames ρ D K (settleAll I xs (a, m)).1 (settleAll I (xs.map ρ) (a', m)).1 := by
  induction xs generalizing a a' m with
  | nil => exact ⟨rfl, h⟩
  | cons x xs ih =>
    obtain ⟨hD, hK⟩ := hxs x List.mem_cons_self
    obtain ⟨hmem, hact⟩ := h.settle I (m := m) hρ hD hK
    have hstep : Kryos.settle I (a', m) (ρ x) =
        ((Kryos.settle I (a', m) (ρ x)).1, (Kryos.settle I (a, m) x).2) := Prod.ext rfl hmem
    simp only [Kryos.settleAll, List.map_cons, List.foldl_cons]
    rw [hstep]
    exact ih (fun y hy => hxs y (List.mem_cons_of_mem _ hy)) hact

/-- Writing a renamed local. -/
theorem Renames.write (hρ : Function.Injective ρ) (h : Renames ρ D K a a') (hK : x ∈ K)
    (m : Memory W) (v : V) :
    (a'.write I m (ρ x) v).2 = (a.write I m x v).2 ∧
      Renames ρ (insert x D) K (a.write I m x v).1 (a'.write I m (ρ x) v).1 := by
  rcases hs : a.slots x with _ | addr
  · have hs' : a'.slots (ρ x) = none := (h.slots x hK).trans hs
    simp only [Activation.write, writeLocal, Activation.places, Activation.state, hs, hs',
      Option.isSome_none, Bool.false_eq_true, if_false, true_and]
    refine ⟨fun y hy hnone => ?_, h.slots⟩
    by_cases hyx : y = x
    · subst hyx
      simp
    · simp only [Function.update_of_ne hyx, Function.update_of_ne (hρ.ne hyx)]
      exact h.regs y (Set.mem_of_mem_insert_of_ne hy hyx) hnone
  · have hs' : a'.slots (ρ x) = some addr := (h.slots x hK).trans hs
    simp only [Activation.write, writeLocal, Activation.places, Activation.state, hs, hs',
      Option.isSome_some, if_true, Option.getD_some, true_and]
    refine ⟨fun y hy hnone => ?_, h.slots⟩
    rcases hy with rfl | hy
    · exact absurd (hs.symm.trans hnone) (by simp)
    · exact h.regs y hy hnone

theorem Renames.mono {D' : Set LocalId} (h : Renames ρ D K a a') (hD : D' ⊆ D) :
    Renames ρ D' K a a' :=
  ⟨fun x hx => h.regs x (hD hx), h.slots⟩

/-- The locals an instruction may need, with what holds in a renamed activation. -/
theorem Renames.execIn (hρ : Function.Injective ρ) (h : Renames ρ D K a a') {inst : Instruction}
    (huses : ∀ x ∈ inst.uses, x ∈ D ∧ x ∈ K) (hdest : ∀ x, inst.dest = some x → x ∈ K) :
    (∃ e, execIn I (a, m) inst = .error e ∧ execIn I (a', m) (inst.rename ρ) = .error e) ∨
      ∃ b b' n, execIn I (a, m) inst = .ok (b, n) ∧ execIn I (a', m) (inst.rename ρ) = .ok (b', n) ∧
        Renames ρ (D ∪ {x | x ∈ inst.dest}) K b b' := by
  have haddr : ∀ x ∈ inst.addressed, x ∈ D ∧ x ∈ K := fun x hx =>
    huses x (List.mem_append_right _ hx)
  obtain ⟨hmem, hact⟩ := h.settleAll I (m := m) hρ haddr
  simp only [Kryos.execIn, Instruction.addressed_rename, hmem, execInst_eq, instResult_rename,
    Instruction.dest_rename]
  generalize Kryos.settleAll I inst.addressed (a, m) = am at hact ⊢
  generalize (Kryos.settleAll I (inst.addressed.map ρ) (a', m)).1 = b' at hact ⊢
  obtain ⟨b, n⟩ := am
  have hresult : instResult I (readOperand I b'.places (b'.state n) ∘ Operand.rename ρ)
      (b'.places.place ∘ ρ) n.world inst =
        instResult I (readOperand I b.places (b.state n)) b.places.place n.world inst := by
    refine instResult_congr I (fun op hop => ?_) fun x hx => hact.place (haddr x hx).2
    exact hact.read I fun x hx =>
      huses x (List.mem_append_left _ (List.mem_flatMap.mpr ⟨op, hop, hx⟩))
  simp only [Activation.state] at hresult ⊢
  rw [hresult]
  rcases instResult I (readOperand I b.places ⟨b.regs, n.world⟩) b.places.place n.world inst with
    e | ⟨v, w⟩
  · exact .inl ⟨e, rfl, rfl⟩
  · refine .inr ?_
    rcases hd : inst.dest with _ | d
    · refine ⟨_, _, _, rfl, rfl, hact.mono ?_⟩
      simp
    · obtain ⟨hmem', hren⟩ := hact.write I hρ (hdest d hd) ⟨w, n.next⟩ v
      refine ⟨_, _, _, rfl, ?_, hren.mono ?_⟩
      · exact congrArg (fun m => Except.ok (_, m)) hmem'
      · rintro y (hy | hy)
        · exact Set.mem_insert_of_mem _ hy
        · exact Option.some.inj hy ▸ Set.mem_insert _ _

end Renamed

/-! ## Copies -/

section Copies

variable {V W : Type} {I : Interp V W ℕ}

/-- Write several registers, one after the other. -/
def writeRegs (regs : LocalId → V) (ps : List (LocalId × V)) : LocalId → V :=
  ps.foldl (fun regs p => Function.update regs p.1 p.2) regs

theorem writeRegs_of_notMem {ps : List (LocalId × V)} (hx : x ∉ ps.map Prod.fst)
    (regs : LocalId → V) : writeRegs regs ps x = regs x := by
  induction ps generalizing regs with
  | nil => rfl
  | cons p ps ih =>
    simp only [List.map_cons, List.mem_cons, not_or] at hx
    rw [writeRegs, List.foldl_cons, ← writeRegs, ih hx.2, Function.update_of_ne hx.1]

/-- What was written, under renamed registers, does not depend on what was there before. -/
theorem writeRegs_rename {ρ : LocalId → LocalId} (hρ : Function.Injective ρ)
    {ps : List (LocalId × V)} (hx : x ∈ ps.map Prod.fst) (regs regs' : LocalId → V) :
    writeRegs regs (ps.map fun p => (ρ p.1, p.2)) (ρ x) = writeRegs regs' ps x := by
  induction ps generalizing regs regs' with
  | nil => cases hx
  | cons p ps ih =>
    simp only [writeRegs, List.map_cons, List.foldl_cons]
    rw [← writeRegs, ← writeRegs]
    by_cases hmem : x ∈ ps.map Prod.fst
    · exact ih hmem _ _
    · obtain rfl : x = p.1 := by simpa [hmem] using hx
      have hmem' : ρ p.1 ∉ (ps.map fun p => (ρ p.1, p.2)).map Prod.fst := by
        simp only [List.map_map, List.mem_map, Function.comp_apply, not_exists, not_and]
        exact fun q hq h => hmem (List.mem_map.mpr ⟨q, hq, hρ h⟩)
      rw [writeRegs_of_notMem hmem, writeRegs_of_notMem hmem', Function.update_self,
        Function.update_self]

theorem map_writeRegs_zip {xs : List LocalId} (hxs : xs.Nodup) {vs : List V}
    (hlen : xs.length = vs.length) (regs : LocalId → V) :
    xs.map (writeRegs regs (xs.zip vs)) = vs := by
  induction xs generalizing vs regs with
  | nil => exact (List.length_eq_zero_iff.mp hlen.symm).symm
  | cons x xs ih =>
    obtain ⟨v, vs, rfl⟩ := List.exists_cons_of_length_eq_add_one hlen.symm
    have hlen' : xs.length = vs.length := Nat.succ.inj hlen
    have hx : x ∉ (xs.zip vs).map Prod.fst := by
      rw [List.map_fst_zip hlen'.le]
      exact (List.nodup_cons.mp hxs).1
    simp only [List.zip_cons_cons, List.map_cons]
    refine congrArg₂ _ ?_ (ih (List.nodup_cons.mp hxs).2 hlen' _)
    rw [writeRegs, List.foldl_cons, ← writeRegs, writeRegs_of_notMem hx, Function.update_self]

theorem execIn_use (a : Activation V) (m : Memory W) (d : LocalId) (op : Operand) :
    execIn I (a, m) (.assign d (.use op)) = .ok (a.write I m d (a.read I m op)) := by
  simp only [execIn, Instruction.addressed, RValue.addressed, settleAll, List.foldl_nil,
    execInst_assign_use, Except.map]
  rfl

theorem write_of_register {a : Activation V} {d : LocalId} (hd : a.slots d = none) (m : Memory W)
    (v : V) : a.write I m d v = (⟨Function.update a.regs d v, a.slots⟩, m) := by
  simp [Activation.write, writeLocal, Activation.places, hd, Activation.state]

/-- A register that is not read does not matter. -/
theorem read_update {a : Activation V} {op : Operand} (hx : x ∉ op.locals) (m : Memory W) (v : V) :
    (⟨Function.update a.regs x v, a.slots⟩ : Activation V).read I m op = a.read I m op := by
  rcases op with y | c
  · have hyx : y ≠ x := fun h => hx (List.mem_singleton.mpr h.symm)
    simp only [Activation.read, readOperand, readLocal, Activation.places, Activation.state,
      Function.update_of_ne hyx]
    rfl
  · rfl

/-- Copies between registers that write no local they read: all see the values from before, and
nothing is observed. -/
theorem quiet_copies (M : MirModule) {ps : List (LocalId × Operand)} (rest : List Instruction)
    (fr : Frame V) (hslots : ∀ p ∈ ps, fr.act.slots p.1 = none)
    (hps : ∀ p ∈ ps, ∀ x ∈ p.2.locals, ∀ q ∈ ps, q.1 ≠ x) (stack : List (Frame V × LocalId))
    (m : Memory W) :
    Machine.Quiet (step I M) (fun c => c.mem.world)
      ⟨{ fr with rest := ps.map (fun p => .assign p.1 (.use p.2)) ++ rest }, stack, m⟩
      ⟨{ fr with
          rest := rest
          act := ⟨writeRegs fr.act.regs (ps.map fun p => (p.1, fr.act.read I m p.2)),
            fr.act.slots⟩ }, stack, m⟩ := by
  induction ps generalizing fr with
  | nil => exact .refl
  | cons p ps ih =>
    let fr₁ := { fr with
      act := ⟨Function.update fr.act.regs p.1 (fr.act.read I m p.2), fr.act.slots⟩ }
    have hsame : ps.map (fun q => (q.1, fr₁.act.read I m q.2)) =
        ps.map fun q => (q.1, fr.act.read I m q.2) := by
      refine List.map_congr_left fun q hq => congrArg _ (read_update (fun hx => ?_) m _)
      exact hps q (List.mem_cons_of_mem _ hq) _ hx p List.mem_cons_self rfl
    have htail := ih fr₁ (fun q hq => hslots q (List.mem_cons_of_mem _ hq))
      fun q hq x hx r hr => hps q (List.mem_cons_of_mem _ hq) x hx r (List.mem_cons_of_mem _ hr)
    rw [hsame] at htail
    refine .head ⟨?_, ?_⟩ htail
    · simp only [List.map_cons, List.cons_append, step, MirModule.callOf, execIn_use,
        write_of_register (hslots p List.mem_cons_self)]
      rfl
    · rfl

end Copies

/-! ## Activations without memory -/

/-- An activation that has no address-taken local, will not get one, and has seen none in its
callees. -/
structure PlainFrame {V : Type} (M : MirModule) (fr : Frame V) : Prop where
  mem : fr.fn ∈ M.functions
  slots : ∀ x, fr.act.slots x = none
  rest : ∀ inst ∈ fr.rest, inst.addressed = []
  calls : ∀ p ∈ fr.calls, ∀ x, p.2 x = none

def NoAddresses {V W : Type} (M : MirModule) (c : Config V W) : Prop :=
  ∀ fr ∈ c.top :: c.stack.map Prod.fst, PlainFrame M fr

section NoAddresses

variable {V W : Type} {I : Interp V W ℕ} {M : MirModule}

section

variable (hM : ∀ f ∈ M.functions, ∀ b ∈ f.blocks, ∀ inst ∈ b.instructions, inst.addressed = [])

include hM

/-- Where nothing takes an address, no activation ever has an address-taken local. -/
theorem NoAddresses.step {c d : Config V W} (h : NoAddresses M c) (hd : step I M c = .inl d) :
    NoAddresses M d := by
  have htop := h c.top List.mem_cons_self
  have hbelow : ∀ fr ∈ c.stack.map Prod.fst, PlainFrame M fr :=
    fun fr hfr => h fr (List.mem_cons_of_mem _ hfr)
  simp only [Kryos.step] at hd
  split at hd
  · rename_i inst rest hr
    have hrest' : ∀ i ∈ rest, i.addressed = [] := fun i hi =>
      htop.rest i (hr ▸ List.mem_cons_of_mem _ hi)
    split at hd
    · rename_i dest f b args hcall
      obtain rfl := Sum.inl.inj hd
      obtain ⟨name, -, hbody⟩ := callOf_eq_some hcall
      obtain ⟨hf, -, hhead⟩ := findBody_eq_some hbody
      rintro fr (_ | ⟨_, _ | ⟨_, hfr⟩⟩)
      · exact ⟨hf, fun _ => rfl, hM f hf b (List.mem_of_mem_head? hhead), nofun⟩
      · exact ⟨htop.mem, htop.slots, hrest', htop.calls⟩
      · exact hbelow fr hfr
    · split at hd <;> try contradiction
      rename_i a m hexec
      obtain rfl := Sum.inl.inj hd
      have hnone : ∀ x, x ∉ inst.addressed := fun x hx => by
        rw [htop.rest inst (hr ▸ List.mem_cons_self)] at hx
        cases hx
      have hslots : ∀ x, a.slots x = none := fun x =>
        ((execIn_frame hexec).2 x (hnone x)).trans (htop.slots x)
      rintro fr (_ | ⟨_, hfr⟩)
      · exact ⟨htop.mem, hslots, hrest', htop.calls⟩
      · exact hbelow fr hfr
  · split at hd
    · split at hd <;> try contradiction
      rename_i b hb
      obtain rfl := Sum.inl.inj hd
      rintro fr (_ | ⟨_, hfr⟩)
      · exact ⟨htop.mem, htop.slots, hM _ htop.mem b (List.mem_of_find?_eq_some hb), htop.calls⟩
      · exact hbelow fr hfr
    · split at hd <;> try contradiction
      rename_i v fr dest stack hv hstack
      obtain rfl := Sum.inl.inj hd
      rw [hstack] at hbelow
      have hcaller := hbelow fr List.mem_cons_self
      have hslots : ∀ x, (fr.act.receive I c.mem dest v).1.slots x = none := by
        rcases v with _ | v
        · exact hcaller.slots
        · exact hcaller.slots
      rintro fr' (_ | ⟨_, hfr'⟩)
      · refine ⟨hcaller.mem, hslots, hcaller.rest, fun p hp => ?_⟩
        rcases List.mem_cons.mp hp with rfl | hp
        · exact htop.slots
        · exact hcaller.calls p hp
      · exact hbelow fr' (List.mem_cons_of_mem _ hfr')

theorem NoAddresses.reaches {c d : Config V W} (h : NoAddresses M c)
    (hd : Machine.Reaches (Kryos.step I M) c d) : NoAddresses M d := by
  induction hd with
  | refl => exact h
  | tail _ hstep ih => exact ih.step hM hstep

theorem NoAddresses.start {name : String} {args : List V} {m : Memory W} {c : Config V W}
    (hc : start I M name args m = some c) : NoAddresses M c := by
  obtain ⟨⟨f, b⟩, hbody, rfl⟩ := Option.map_eq_some_iff.mp hc
  obtain ⟨hf, -, hhead⟩ := findBody_eq_some hbody
  rintro fr (_ | ⟨_, hfr⟩)
  · exact ⟨hf, fun _ => rfl, hM f hf b (List.mem_of_mem_head? hhead), nofun⟩
  · cases hfr

end

end NoAddresses

theorem update_self_word (w : ℕ → I64) (a : ℕ) (v : I64) : Function.update w a v a = v :=
  Function.update_self a v w

theorem update_of_ne_word (w : ℕ → I64) {a b : ℕ} (v : I64) (h : a ≠ b) :
    Function.update w a v b = w b :=
  Function.update_of_ne h.symm v w

/-- Words in a flat memory. -/
def flatMachine : Interp I64 (ℕ → I64) ℕ where
  const c := c.slot fun _ => 0
  truthy v := v != 0
  asInt v := v
  load w a := w a
  store w a v := Function.update w a v
  load_store_self := update_self_word
  load_store_of_ne := update_of_ne_word
  rvalue rv addrs w :=
    .ok (match rv with
      | .use v => v
      | .binOp .sub l r => l - r
      | .binOp .eq l r => if l = r then 1 else 0
      | .addrOf _ _ => (addrs.map (BitVec.ofNat 64)).headD 0
      | .deref p => w p.toNat
      | _ => 0, w)
  rvalue_use _ _ := rfl
  action _ w := .ok (0, w)

end Kryos
