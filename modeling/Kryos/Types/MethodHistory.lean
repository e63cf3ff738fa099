import Kryos.Types.MethodTable
import Mathlib.Data.List.Nodup

/-!
# What the method table holds

The declarations of a sequence, in their order, with the signatures that registration gave them.
Each signature has a row variable of its own, which tells it from every other one. After a sequence
without diagnostics the table holds, for each type and trait, what the last impl block of both gives.

## Main results

* `MethodTable.represents_register` — one declaration
* `MethodTable.represents_registerAll` — a sequence that is accepted
-/

namespace Kryos.Types.MethodTable

variable {r : Resolver} {order : Order}

/-! ## Histories -/

structure Block where
  target : String
  traitName : Option String
  written : List FunctionSig

def Block.key (b : Block) : Key := (b.target, b.traitName)

inductive Event where
  /-- with each method, whether it has a body -/
  | trait (name : String) (methods : List (FunctionSig × Bool))
  | impl (b : Block)

namespace Event

def declared : Event → List FunctionSig
  | trait _ methods => methods.map Prod.fst
  | impl b => b.written

def traitMethods (name : String) : Event → Option (List (FunctionSig × Bool))
  | trait name' methods => if name' = name then some methods else none
  | impl _ => none

end Event

def eventOf (r : Resolver) (item : Item) (engine : Engine) : Event :=
  match item with
  | .trait name _ methods =>
    .trait name ((declaredSigs r item engine).1.zip
      ((methods.filterMap methodOf).map Method.hasBody))
  | .impl target traitName _ _ => .impl ⟨target, traitName, (declaredSigs r item engine).1⟩

def history (r : Resolver) : List Item → Engine → List Event
  | [], _ => []
  | item :: items, engine =>
    eventOf r item engine :: history r items (declaredSigs r item engine).2

/-- The methods of the last declaration of the trait. -/
def inForce (es : List Event) (traitName : String) : Option (List (FunctionSig × Bool)) :=
  es.reverse.findSome? (Event.traitMethods traitName)

/-- What a block inherits after `before`. -/
def inherits (r : Resolver) (before : List Event) (b : Block) : List FunctionSig :=
  match b.traitName.bind (inForce before) with
  | some methods => inheritedSigs (r.targetTy b.target) b.written (methods.map Prod.fst)
  | none => []

/-- The methods that a block after `before` gives its type. -/
def gives (r : Resolver) (before : List Event) (b : Block) : List FunctionSig :=
  b.written ++ inherits r before b

/-- The block is the last one of its type and its trait. -/
def Standing (es before : List Event) (b : Block) : Prop :=
  ∃ after, es = before ++ .impl b :: after ∧ ∀ c, .impl c ∈ after → c.key ≠ b.key

/-! ### Appending a declaration -/

theorem inForce_concat (es : List Event) (e : Event) (traitName : String) :
    inForce (es ++ [e]) traitName = (e.traitMethods traitName).or (inForce es traitName) := by
  rw [inForce, List.reverse_append, List.findSome?_append]
  cases h : e.traitMethods traitName <;>
    simp [h, inForce]

variable {es : List Event}

theorem mem_of_inForce {traitName : String} {methods : List (FunctionSig × Bool)}
    (h : inForce es traitName = some methods) : .trait traitName methods ∈ es := by
  obtain ⟨e, he, hsome⟩ := List.exists_of_findSome?_eq_some h
  rw [List.mem_reverse] at he
  cases e with
  | impl b => cases hsome
  | trait name ms =>
    rw [Event.traitMethods] at hsome
    split_ifs at hsome with hname
    cases hsome
    exact hname ▸ he

theorem standing_concat_iff {before : List Event} {e : Event} {b : Block} :
    Standing (es ++ [e]) before b ↔ (before = es ∧ e = .impl b) ∨
      (Standing es before b ∧ ∀ c, e = .impl c → c.key ≠ b.key) := by
  constructor
  · rintro ⟨after, heq, hlast⟩
    obtain rfl | ⟨after', last, rfl⟩ := after.eq_nil_or_concat
    · obtain ⟨hbefore, hlast⟩ := List.append_inj' heq rfl
      exact .inl ⟨hbefore.symm, List.singleton_inj.mp hlast⟩
    · rw [List.concat_eq_append, ← List.cons_append, ← List.append_assoc] at heq
      obtain ⟨hes, hend⟩ := List.append_inj' heq rfl
      rw [List.concat_eq_append] at hlast
      refine .inr ⟨⟨after', hes, fun c hc => hlast c (List.mem_append_left _ hc)⟩, ?_⟩
      rintro c rfl
      exact hlast c (List.mem_append_right _ (hend ▸ List.mem_singleton.mpr rfl))
  · rintro (⟨rfl, rfl⟩ | ⟨⟨after, rfl, hlast⟩, hne⟩)
    · exact ⟨[], rfl, nofun⟩
    · refine ⟨after ++ [e], by rw [List.append_assoc, List.cons_append], fun c hc => ?_⟩
      obtain hc | hc := List.mem_append.mp hc
      · exact hlast c hc
      · exact hne c (List.mem_singleton.mp hc).symm

/-! ### Signatures -/

theorem nextCapVar_bindGenerics (gs : List String) (engine : Engine) :
    (bindGenerics gs engine).2.nextCapVar = engine.nextCapVar := by
  induction gs generalizing engine with
  | nil => rfl
  | cons g gs ih => exact ih _

theorem le_nextCapVar_paramTypes (c : Context) (params) (engine : Engine) :
    engine.nextCapVar ≤ (paramTypes r c params engine).2.2.nextCapVar := by
  induction params generalizing engine with
  | nil => exact Nat.le_refl _
  | cons p params ih =>
    obtain ⟨name, ty⟩ := p
    refine Nat.le_trans ?_ (ih (paramTy r c name ty engine).2.2)
    unfold paramTy
    split
    · exact Nat.le_add_right _ _
    · exact Nat.le_refl _
    · exact Nat.le_refl _

theorem le_nextCapVar_retTy (c : Context) (ty) (engine : Engine) :
    engine.nextCapVar ≤ (retTy r c ty engine).2.2.nextCapVar := by
  cases ty with
  | none => exact Nat.le_refl _
  | some ty => exact Nat.le_add_right _ _

theorem ownCapVar_methodSig (c : Context) (ids : List TyVarId) (m : Method) (engine : Engine) :
    engine.nextCapVar ≤ (methodSig r c ids m engine).1.ownCapVar ∧
      (methodSig r c ids m engine).2.nextCapVar = (methodSig r c ids m engine).1.ownCapVar + 1 :=
  ⟨(le_nextCapVar_paramTypes c m.params engine).trans (le_nextCapVar_retTy c m.retTy _), rfl⟩

/-- The row variables of the signatures are new, and each is another one. -/
theorem ownCapVar_methodSigs (c : Context) (ids : List TyVarId) (ms : List Method)
    (engine : Engine) :
    ((methodSigs r c ids ms engine).1.map FunctionSig.ownCapVar).Nodup ∧
      engine.nextCapVar ≤ (methodSigs r c ids ms engine).2.nextCapVar ∧
      ∀ sig ∈ (methodSigs r c ids ms engine).1, engine.nextCapVar ≤ sig.ownCapVar ∧
        sig.ownCapVar < (methodSigs r c ids ms engine).2.nextCapVar := by
  induction ms generalizing engine with
  | nil => exact ⟨List.nodup_nil, Nat.le_refl _, nofun⟩
  | cons m ms ih =>
    obtain ⟨hge, hnext⟩ := ownCapVar_methodSig (r := r) c ids m engine
    obtain ⟨hnodup, hle, hbounds⟩ := ih (methodSig r c ids m engine).2
    rw [hnext] at hle hbounds
    refine ⟨List.nodup_cons.mpr ⟨fun hmem => ?_, hnodup⟩,
      (hge.trans (Nat.le_succ _)).trans hle, fun sig hsig => ?_⟩
    · obtain ⟨sig, hsig, heq⟩ := List.mem_map.mp hmem
      exact absurd heq (Nat.ne_of_gt (hbounds sig hsig).1)
    · obtain hsig | hsig := List.mem_cons.mp hsig
      · rw [hsig]
        exact ⟨hge, hle⟩
      · obtain ⟨hlow, hhigh⟩ := hbounds sig hsig
        exact ⟨(hge.trans (Nat.le_succ _)).trans hlow, hhigh⟩

theorem name_methodSigs (c : Context) (ids : List TyVarId) (ms : List Method) (engine : Engine) :
    (methodSigs r c ids ms engine).1.map FunctionSig.name = ms.map Method.name := by
  induction ms generalizing engine with
  | nil => rfl
  | cons m ms ih => exact congrArg (m.name :: ·) (ih _)

def Item.methods : Item → List Method
  | .trait _ _ methods => methods.filterMap methodOf
  | .impl _ _ _ methods => methods.filterMap methodOf

theorem name_declaredSigs (item : Item) (engine : Engine) :
    (declaredSigs r item engine).1.map FunctionSig.name = item.methods.map Method.name := by
  cases item <;> exact name_methodSigs _ _ _ _

theorem ownCapVar_declaredSigs (item : Item) (engine : Engine) :
    ((declaredSigs r item engine).1.map FunctionSig.ownCapVar).Nodup ∧
      engine.nextCapVar ≤ (declaredSigs r item engine).2.nextCapVar ∧
      ∀ sig ∈ (declaredSigs r item engine).1, engine.nextCapVar ≤ sig.ownCapVar ∧
        sig.ownCapVar < (declaredSigs r item engine).2.nextCapVar := by
  cases item with
  | trait name generics methods | impl target traitName generics methods =>
    rw [← nextCapVar_bindGenerics (generics.map Ast.GenericParam.name) engine]
    exact ownCapVar_methodSigs _ _ _ _

theorem declared_eventOf (item : Item) (engine : Engine) :
    (eventOf r item engine).declared = (declaredSigs r item engine).1 := by
  cases item with
  | impl target traitName generics methods => rfl
  | trait name generics methods =>
    refine List.map_fst_zip ?_
    have hlen := congrArg List.length
      (name_declaredSigs (r := r) (.trait name generics methods) engine)
    rw [List.length_map, List.length_map] at hlen
    rw [List.length_map]
    exact hlen.le

/-! ### Accepted declarations -/

/-- A declaration whose methods are accepted does not have two of one name. -/
theorem nodup_of_checkMethods {collision : Method → List Diagnostic}
    {twice : String → Diagnostic} {seen : List String} {ms : List Method}
    (h : checkMethods collision twice seen ms = []) :
    (ms.map Method.name).Nodup ∧ ∀ name ∈ seen, name ∉ ms.map Method.name := by
  induction ms generalizing seen with
  | nil => exact ⟨List.nodup_nil, fun _ _ => nofun⟩
  | cons m ms ih =>
    rw [checkMethods, List.append_eq_nil_iff, List.append_eq_nil_iff, List.append_eq_nil_iff] at h
    obtain ⟨⟨⟨-, htwice⟩, -⟩, hrest⟩ := h
    obtain ⟨hnodup, hseen⟩ := ih hrest
    have hnew : m.name ∉ seen := by
      intro hmem
      rw [if_pos hmem] at htwice
      cases htwice
    refine ⟨List.nodup_cons.mpr ⟨hseen _ List.mem_cons_self, hnodup⟩, fun name hname hmem => ?_⟩
    obtain rfl | hlater := List.mem_cons.mp hmem
    · exact hnew hname
    · exact hseen name (List.mem_cons_of_mem _ hname) hlater

theorem nodup_of_accepted {env : Env} {item : Item}
    (h : (register r order env item).diagnostics = []) :
    env.diagnostics = [] ∧ (item.methods.map Method.name).Nodup := by
  cases item with
  | trait name generics methods =>
    obtain ⟨h, -⟩ := List.append_eq_nil_iff.mp h
    obtain ⟨hbefore, hmethods⟩ := List.append_eq_nil_iff.mp h
    exact ⟨hbefore, (nodup_of_checkMethods hmethods).1⟩
  | impl target traitName generics methods =>
    obtain ⟨h, hmethods⟩ := List.append_eq_nil_iff.mp h
    exact ⟨(List.append_eq_nil_iff.mp h).1, (nodup_of_checkMethods hmethods).1⟩

theorem diagnostics_of_registerAll {env : Env} {items : List Item}
    (h : (registerAll r order env items).diagnostics = []) : env.diagnostics = [] := by
  induction items generalizing env with
  | nil => exact h
  | cons item items ih => exact (nodup_of_accepted (ih h)).1

/-! ## The tables -/

/-- The tables after the declarations `es`. -/
structure Represents (r : Resolver) (es : List Event) (env : Env) : Prop where
  traits : ∀ traitName, (env.lookupTrait traitName).map TraitDef.methods =
    (inForce es traitName).map (List.map Prod.fst)
  impls : ∀ key sigs, (key, sigs) ∈ env.impls ↔
    ∃ before b, Standing es before b ∧ b.key = key ∧ gives r before b = sigs
  distinct : ((es.flatMap Event.declared).map FunctionSig.ownCapVar).Nodup
  fresh : ∀ sig ∈ es.flatMap Event.declared, sig.ownCapVar < env.engine.nextCapVar
  names : ∀ e ∈ es, (e.declared.map FunctionSig.name).Nodup

theorem represents_start (engine : Engine) : Represents r [] (Env.start engine) where
  traits _ := rfl
  impls key sigs := by
    refine ⟨nofun, ?_⟩
    rintro ⟨before, b, ⟨after, heq, -⟩, -⟩
    exact absurd heq.symm (List.append_ne_nil_of_right_ne_nil _ (List.cons_ne_nil _ _))
  distinct := List.nodup_nil
  fresh := nofun
  names := nofun

theorem lookupTrait_defineTrait (env : Env) (d : TraitDef) (traitName : String) :
    (d :: env.traits.filter fun d' => d'.name ≠ d.name).find? (fun d' => d'.name = traitName) =
      if d.name = traitName then some d else env.lookupTrait traitName := by
  rw [List.find?_cons]
  by_cases h : d.name = traitName
  · rw [if_pos h]
    simp [h]
  · rw [if_neg h, Env.lookupTrait, List.find?_filter]
    simp only [h, decide_false]
    congr 1
    funext d'
    by_cases h' : d'.name = traitName
    · simp [h', Ne.symm h]
    · simp [h']

section

variable {env : Env} (h : Represents r es env)

include h

theorem inherited_eq (target : String) (traitName : Option String) (sigs : List FunctionSig) :
    (match traitName.bind env.lookupTrait with
      | some d => inheritedSigs (r.targetTy target) sigs d.methods
      | none => []) = inherits r es ⟨target, traitName, sigs⟩ := by
  cases traitName with
  | none => rfl
  | some A =>
    have htraits := h.traits A
    simp only [inherits, Option.bind_some]
    cases hforce : inForce es A with
    | none =>
      rw [hforce, Option.map_none, Option.map_eq_none_iff] at htraits
      rw [htraits]
    | some methods =>
      rw [hforce, Option.map_some, Option.map_eq_some_iff] at htraits
      obtain ⟨d, hd, hmethods⟩ := htraits
      rw [hd]
      exact congrArg (inheritedSigs (r.targetTy target) sigs) hmethods

theorem distinct_concat (item : Item) :
    (((es ++ [eventOf r item env.engine]).flatMap Event.declared).map
      FunctionSig.ownCapVar).Nodup ∧
    ∀ sig ∈ (es ++ [eventOf r item env.engine]).flatMap Event.declared,
      sig.ownCapVar < (declaredSigs r item env.engine).2.nextCapVar := by
  obtain ⟨hnodup, hle, hbounds⟩ := ownCapVar_declaredSigs (r := r) item env.engine
  rw [List.flatMap_append, List.flatMap_singleton, declared_eventOf]
  constructor
  · rw [List.map_append, List.nodup_append]
    refine ⟨h.distinct, hnodup, ?_⟩
    rintro own hold own' hnew rfl
    obtain ⟨sig, hsig, rfl⟩ := List.mem_map.mp hold
    obtain ⟨sig', hsig', heq⟩ := List.mem_map.mp hnew
    have hlt := h.fresh sig hsig
    have hge := (hbounds sig' hsig').1
    omega
  · intro sig hsig
    obtain hsig | hsig := List.mem_append.mp hsig
    · exact (h.fresh sig hsig).trans_le hle
    · exact (hbounds sig hsig).2

/-- What a declaration that is accepted does to the tables. -/
theorem represents_register {item : Item} (haccepted : (register r order env item).diagnostics = [])
    :
    Represents r (es ++ [eventOf r item env.engine]) (register r order env item) := by
  obtain ⟨hdistinct, hfresh⟩ := distinct_concat h item
  have hnames : ∀ e ∈ es ++ [eventOf r item env.engine],
      (e.declared.map FunctionSig.name).Nodup := by
    intro e he
    obtain he | he := List.mem_append.mp he
    · exact h.names e he
    · rw [List.mem_singleton.mp he, declared_eventOf, name_declaredSigs]
      exact (nodup_of_accepted haccepted).2
  cases item with
  | trait name generics methods =>
    refine ⟨fun traitName => ?_, fun key sigs => ?_, hdistinct, hfresh, hnames⟩
    · have hsigs := declared_eventOf (r := r) (.trait name generics methods) env.engine
      rw [Env.lookupTrait]
      show Option.map _ (List.find? _ (_ :: _)) = _
      rw [lookupTrait_defineTrait, inForce_concat, eventOf, Event.traitMethods]
      rw [eventOf, Event.declared] at hsigs
      by_cases hname : name = traitName
      · rw [if_pos hname, if_pos hname, Option.some_or, Option.map_some, Option.map_some]
        exact congrArg some hsigs.symm
      · rw [if_neg hname, if_neg hname, Option.none_or]
        exact h.traits traitName
    · rw [show (register r order env (.trait name generics methods)).impls = env.impls from rfl,
        h.impls]
      simp only [standing_concat_iff, eventOf, reduceCtorEq, and_false, false_or, false_implies,
        implies_true, and_true]
  | impl target traitName generics methods =>
    refine ⟨fun A => ?_, fun key sigs => ?_, hdistinct, hfresh, hnames⟩
    · rw [inForce_concat]
      exact h.traits A
    · obtain ⟨b, hb⟩ : ∃ b : Block, b =
          ⟨target, traitName, (declaredSigs r (.impl target traitName generics methods)
            env.engine).1⟩ := ⟨_, rfl⟩
      have himpls : (register r order env (.impl target traitName generics methods)).impls =
          env.defineImpl b.key (gives r es b) := by
        rw [gives, hb, ← inherited_eq h]
        rfl
      rw [himpls, Env.defineImpl, List.mem_cons, List.mem_filter, Prod.mk.injEq, h.impls]
      simp only [standing_concat_iff, eventOf, ← hb, Event.impl.injEq, decide_eq_true_eq]
      constructor
      · rintro (⟨rfl, rfl⟩ | ⟨⟨before, c, hstanding, rfl, rfl⟩, hne⟩)
        · exact ⟨es, b, .inl ⟨rfl, rfl⟩, rfl, rfl⟩
        · refine ⟨before, c, .inr ⟨hstanding, ?_⟩, rfl, rfl⟩
          rintro c' rfl
          exact fun heq => hne heq.symm
      · rintro ⟨before, c, ⟨rfl, rfl⟩ | ⟨hstanding, hne⟩, rfl, rfl⟩
        · exact .inl ⟨rfl, rfl⟩
        · exact .inr ⟨⟨before, c, hstanding, rfl, rfl⟩, (hne b rfl).symm⟩

/-- What a sequence that is accepted does to the tables. -/
theorem represents_registerAll {items : List Item}
    (haccepted : (registerAll r order env items).diagnostics = []) :
    Represents r (es ++ history r items env.engine) (registerAll r order env items) := by
  induction items generalizing es env with
  | nil => rwa [history, List.append_nil]
  | cons item items ih =>
    have hitem : (register r order env item).diagnostics = [] :=
      diagnostics_of_registerAll haccepted
    have hrest := ih (represents_register h hitem) haccepted
    have hengine : (register r order env item).engine = (declaredSigs r item env.engine).2 := by
      cases item <;> rfl
    rwa [hengine, List.append_assoc] at hrest

end

end Kryos.Types.MethodTable
