import Mathlib
import Kryos.Capabilities.Inference
import Kryos.Capabilities.WalkRules
import Kryos.Lib.ListRel

/-!
# Inference and enforcement

The inference and the enforcement walk read the same bodies, each in its own way. Where a body calls
no function values, what the inference finds a function to need has a description that follows the
calls of the text (`Requires`), and so does what the walk asks for (`Asked`). A function without an
annotation is accepted just where it needs what the walk asks for beyond what is collected
(`Uncollected`): by a bare pipe, by a static call of a builtin, and so on.

## Main results

* `mem_inferred_iff` — what the inference finds
* `inferenceAgrees_iff` — the modules where the functions without an annotation are accepted
-/

namespace Kryos.Capabilities

open Kryos.Ast Checker

/-! ## What is asked for -/

variable {r : Capability}

variable {e : Expr}

section Asked

variable {F : Type} (T : Tables F) (reach : String → Capability → Prop) (c : Lexical)

/-- By a call of a name. `reach` is what the functions of a name need. -/
def NameAsked (isBuiltinName : Bool) (name : String) (args : List Expr) (r : Capability) : Prop :=
  (isBuiltinName ∧ name ∉ T.definedFns ∧ T.requiredCapabilityForBuiltin name = some r) ∨
    T.requiredCapabilityForExternCall name args = some r ∨ reach name r

/-- By a call of an expression. -/
def CalleeAsked (callee : Expr) (args : List Expr) (r : Capability) : Prop :=
  T.requiredCapabilityForPath (resolvePath callee) = some r ∨
    ∃ name, resolvePath callee = [name] ∧ NameAsked T reach true name args r

/-- The receiver is found through an element of `self`. -/
def isSelfElement (object : Expr) : Bool :=
  match decomposeContainerPath object with
  | some ("self", .index :: _) => true
  | _ => false

/-- What the walk asks for at an expression. -/
def Asked : Expr → Capability → Prop
  | .fnCall callee args _, r => CalleeAsked T reach callee args r
  | .methodCall object method args _, r =>
    NameAsked T reach false method args r ∨ (isSelfElement object ∧ r = .all)
  | .staticMethodCall typeName method args _, r =>
    NameAsked T reach (typeName ∉ T.declaredTypeNames) method args r
  | .pipeExpr left right _, r => ¬isCall right ∧ CalleeAsked T reach right [left] r
  | .identifier name _, r =>
    T.requiredCapabilityForExtern name = some r ∨
      (name ∉ T.definedFns ∧ T.requiredCapabilityForBuiltin name = some r) ∨
      (name ∉ c.bound ∧ reach name r)
  | _, _ => False

/-- What the walk asks for and the inference does not collect. -/
def Uncollected : Expr → Capability → Prop
  | .methodCall object method args _, r =>
    T.requiredCapabilityForExternCall method args = some r ∨ (isSelfElement object ∧ r = .all)
  | .staticMethodCall typeName method args _, r =>
    T.requiredCapabilityForExternCall method args = some r ∨
      (typeName ∉ T.declaredTypeNames ∧ method ∉ T.definedFns ∧
        T.requiredCapabilityForBuiltin method = some r)
  | .pipeExpr left right _, r =>
    ¬isCall right ∧
      (T.requiredCapabilityForPath (resolvePath right) = some r ∨
        ∃ name, resolvePath right = [name] ∧
          ((¬isIdentifier right ∧ name ∉ T.definedFns ∧
              T.requiredCapabilityForBuiltin name = some r) ∨
            T.requiredCapabilityForExternCall name [left] = some r ∨ reach name r))
  | .identifier name _, r =>
    T.requiredCapabilityForExtern name = some r ∨ (name ∉ c.bound ∧ reach name r)
  | _, _ => False

/-- The functions of this name are called there, as far as the inference goes. -/
def Calls (e : Expr) (name : String) : Prop :=
  match e with
  | .fnCall callee _ _ => resolvePath callee = [name]
  | .methodCall _ method _ _ => method = name
  | .staticMethodCall _ method _ _ => method = name
  | _ => False

def IsValue (e : Expr) (r : Capability) : Prop :=
  match e with
  | .identifier name _ => name ∉ T.definedFns ∧ T.requiredCapabilityForBuiltin name = some r
  | _ => False

/-- What the inference collects at an expression, apart from what the functions called need. -/
def Collected : Expr → Capability → Prop
  | .fnCall callee args _, r =>
    T.requiredCapabilityForPath (resolvePath callee) = some r ∨
      (∃ name, resolvePath callee = [name] ∧
        ((name ∉ T.definedFns ∧ T.requiredCapabilityForBuiltin name = some r) ∨
          T.requiredCapabilityForExternCall name args = some r)) ∨
      IsValue T callee r
  | .pipeExpr _ right _, r => IsValue T right r
  | e, r => IsValue T e r

variable {T reach c}

theorem asked_of_uncollected (h : Uncollected T reach c e r) : Asked T reach c e r := by
  cases e with
  | methodCall object method args span =>
    exact h.imp (fun hext => .inr (.inl hext)) id
  | staticMethodCall typeName method args span =>
    rcases h with hext | ⟨htype, hdef, hbuiltin⟩
    · exact .inr (.inl hext)
    · exact .inl ⟨decide_eq_true htype, hdef, hbuiltin⟩
  | pipeExpr left right span =>
    refine ⟨h.1, h.2.imp id ?_⟩
    rintro ⟨name, hname, hasked⟩
    exact ⟨name, hname, hasked.imp (fun hb => ⟨rfl, hb.2⟩) id⟩
  | identifier name span => exact h.imp id .inr
  | _ => exact h.elim

theorem resolvePath_of_isIdentifier (h : isIdentifier e) :
    ∃ name span, e = .identifier name span := by
  cases e with
  | identifier name span => exact ⟨name, span, rfl⟩
  | _ => cases h

/-- What is asked for is collected, or needed by a function called, or it is left out. -/
theorem asked_cases (h : Asked T reach c e r) :
    Collected T e r ∨ (∃ name, Calls e name ∧ reach name r) ∨ Uncollected T reach c e r := by
  cases e with
  | fnCall callee args span =>
    rcases h with hpath | ⟨name, hname, ⟨-, hbuiltin⟩ | hext | hreach⟩
    · exact .inl (.inl hpath)
    · exact .inl (.inr (.inl ⟨name, hname, .inl hbuiltin⟩))
    · exact .inl (.inr (.inl ⟨name, hname, .inr hext⟩))
    · exact .inr (.inl ⟨name, hname, hreach⟩)
  | methodCall object method args span =>
    rcases h with (⟨hfalse, -⟩ | hext | hreach) | hself
    · cases hfalse
    · exact .inr (.inr (.inl hext))
    · exact .inr (.inl ⟨method, rfl, hreach⟩)
    · exact .inr (.inr (.inr hself))
  | staticMethodCall typeName method args span =>
    rcases h with ⟨htype, hbuiltin⟩ | hext | hreach
    · exact .inr (.inr (.inr ⟨of_decide_eq_true htype, hbuiltin⟩))
    · exact .inr (.inr (.inl hext))
    · exact .inr (.inl ⟨method, rfl, hreach⟩)
  | pipeExpr left right span =>
    obtain ⟨hcall, hpath | ⟨name, hname, ⟨-, hbuiltin⟩ | hrest⟩⟩ := h
    · exact .inr (.inr ⟨hcall, .inl hpath⟩)
    · by_cases hid : isIdentifier right
      · obtain ⟨name', span', rfl⟩ := resolvePath_of_isIdentifier hid
        obtain rfl : name' = name := List.singleton_inj.mp hname
        exact .inl hbuiltin
      · exact .inr (.inr ⟨hcall, .inr ⟨name, hname, .inl ⟨hid, hbuiltin⟩⟩⟩)
    · exact .inr (.inr ⟨hcall, .inr ⟨name, hname, .inr hrest⟩⟩)
  | identifier name span =>
    rcases h with hext | hbuiltin | hreach
    · exact .inr (.inr (.inl hext))
    · exact .inl hbuiltin
    · exact .inr (.inr (.inr hreach))
  | _ => exact h.elim

end Asked

/-! ## Bodies that call no function values -/

variable {f : FunctionDecl} {name : String} {span : Span}

variable {c : Lexical}

section FirstOrder

variable {R L : Type} (A : Analysis R L)

namespace Analysis

/-- The tables before anything is known of the functions. -/
def base : Tables (Frame L) := A.tables A.noReturns fun _ => none

end Analysis

/-- The expressions of a body, with what is bound there. -/
def FunctionDecl.places (f : FunctionDecl) : List (Expr × Lexical) :=
  lexicalBlock patternNames (.function f.params) f.body

/-- The callee is the name of a function, or a path that no local is the root of. -/
structure NamedCallee (f : FunctionDecl) (c : Lexical) (callee : Expr) : Prop where
  path : resolvePath callee ≠ []
  name : ∀ name, resolvePath callee = [name] → A.base.isGlobalName name ∧ name ∉ c.bound ∧
    ∀ returns w own, ¬A.isKnownLocal (A.localsOf returns w own f.body) name
  root : ∀ root path, decomposeContainerPath callee = some (root, path) → path ≠ [] →
    root ∉ c.bound

variable {callee : Expr}

variable {A} in
theorem NamedCallee.not_short (h : NamedCallee A f c callee)
    (hsingle : ∀ name, resolvePath callee ≠ [name]) : ¬(resolvePath callee).length ≤ 1 := by
  intro hle
  cases hpath : resolvePath callee with
  | nil => exact h.path hpath
  | cons name rest =>
    rw [hpath, List.length_cons] at hle
    have hrest : rest = [] := List.length_eq_zero_iff.mp (by omega)
    exact hsingle name (hrest ▸ hpath)

/-- No function value is called at the place, and it is in no `deny!` block. -/
structure FirstOrderPlace (f : FunctionDecl) (p : Expr × Lexical) : Prop where
  denied : p.2.denied = []
  call : ∀ callee args span, p.1 = .fnCall callee args span → NamedCallee A f p.2 callee
  pipe : ∀ left right span, p.1 = .pipeExpr left right span → ¬isCall right →
    NamedCallee A f p.2 right
  method : ∀ object method args span, p.1 = .methodCall object method args span →
    ∀ returns w own, ¬A.isFieldCall (A.localsOf returns w own f.body) object method

/-- The body neither takes nor calls function values. -/
structure FirstOrderBody (f : FunctionDecl) : Prop where
  params : ∀ p ∈ f.params, ¬(Structs.ofDecls A.declarations).isFnBearingType (paramType p)
  places : ∀ p ∈ f.places, FirstOrderPlace A f p

/-! ## What is collected in such a body -/

variable {args : List Expr} {p : Expr × Lexical}

section Collecting

variable {A} {f : FunctionDecl} {returns : R} {w : CapabilityMap}

theorem own_eq_empty (h : FirstOrderBody A f) :
    fnTypedNames (A.tables returns w) f.params = ∅ := by
  have hnil : (f.params.filter fun p => (A.tables returns w).isFnBearingType (paramType p)) = [] :=
    List.filter_eq_nil_iff.mpr h.params
  rw [fnTypedNames, hnil]
  rfl

theorem calleeIsLocal_eq_false (h : FirstOrderBody A f)
    (hlocal : ∀ returns w own, ¬A.isKnownLocal (A.localsOf returns w own f.body) name) :
    calleeIsLocal A.isKnownLocal (collectContext (A.tables returns w) f) name = false := by
  have hown : name ∉ fnTypedNames (A.tables returns w) f.params := by
    rw [own_eq_empty h]
    exact Finset.notMem_empty name
  rw [calleeIsLocal, Bool.or_eq_false_iff]
  exact ⟨decide_eq_false hown, Bool.eq_false_iff.mpr (hlocal returns w _)⟩

theorem mem_ite_empty {p : Prop} [Decidable p] {s : CapabilitySet} :
    r ∈ (if p then ∅ else s) ↔ ¬p ∧ r ∈ s := by
  by_cases h : p
  · rw [if_pos h]
    exact ⟨fun hr => absurd hr (Finset.notMem_empty r), fun hr => absurd h hr.1⟩
  · rw [if_neg h]
    exact ⟨fun hr => ⟨h, hr⟩, And.right⟩

theorem mem_collectValue :
    r ∈ collectValue (A.tables returns w) name ↔
      name ∉ A.base.definedFns ∧ A.requiredCapabilityForBuiltin name = some r := by
  rw [collectValue, mem_ite_empty, Option.mem_toFinset]
  rfl

theorem mem_calleeValue : r ∈ calleeValue (A.tables returns w) e ↔ IsValue A.base e r := by
  cases e with
  | identifier name span => exact mem_collectValue
  | _ => exact ⟨fun hr => absurd hr (Finset.notMem_empty r), False.elim⟩

/-- A bare name is no path. -/
theorem requiredCapabilityForPath_singleton (name : String) :
    requiredCapabilityForPath [name] = none := by
  rw [requiredCapabilityForPath.eq_def]
  split
  · rename_i heq
    cases heq
  · rfl

theorem mem_collectName (hhot : ¬A.isHot name) (hname : A.base.isGlobalName name)
    (hlocal : calleeIsLocal A.isKnownLocal (collectContext (A.tables returns w) f) name = false) :
    r ∈ collectName (A.tables returns w) A.isKnownLocal (collectContext (A.tables returns w) f)
      callee name args ↔
    (name ∉ A.base.definedFns ∧ A.requiredCapabilityForBuiltin name = some r) ∨
      A.base.requiredCapabilityForExternCall name args = some r ∨ r ∈ w.entry name := by
  have hglobal : (A.tables returns w).isGlobalName name = true := hname
  have hpath : (A.tables returns w).requiredCapabilityForPath [name] = none :=
    requiredCapabilityForPath_singleton name
  have hextra : (A.tables returns w).accumulateHotExtraCaps
      (collectContext (A.tables returns w) f) name args false = ∅ := if_neg hhot
  simp only [collectName, hlocal, hglobal, hpath, hextra, Bool.not_false, Bool.and_self, if_true,
    Option.toFinset_none, ite_self, Finset.empty_union, Finset.union_empty, Finset.mem_union,
    mem_ite_empty, Option.mem_toFinset]
  exact or_assoc

section

variable (hhot : ∀ name, ¬A.isHot name) (h : FirstOrderBody A f)

include hhot h

theorem mem_collectCallee (hcallee : NamedCallee A f c callee) :
    r ∈ collectCallee (A.tables returns w) A.isKnownLocal (collectContext (A.tables returns w) f)
      callee args ↔
    requiredCapabilityForPath (resolvePath callee) = some r ∨
      ∃ name, resolvePath callee = [name] ∧
        ((name ∉ A.base.definedFns ∧ A.requiredCapabilityForBuiltin name = some r) ∨
          A.base.requiredCapabilityForExternCall name args = some r ∨ r ∈ w.entry name) := by
  rw [collectCallee]
  split
  · rename_i name hpath
    obtain ⟨hname, -, hlocal⟩ := hcallee.name name hpath
    rw [mem_collectName (hhot name) hname (calleeIsLocal_eq_false h hlocal), hpath,
      requiredCapabilityForPath_singleton]
    constructor
    · exact fun hr => .inr ⟨name, rfl, hr⟩
    · rintro (hr | ⟨name', heq, hr⟩)
      · cases hr
      · rwa [List.singleton_inj.mp heq]
  · rename_i hsingle
    rw [if_neg (hcallee.not_short hsingle), Finset.union_empty, Option.mem_toFinset]
    exact ⟨.inl, fun hr => hr.resolve_right fun ⟨name, hpath, _⟩ => hsingle name hpath⟩

/-- What is collected at an expression. -/
theorem mem_placeCaps (hp : FirstOrderPlace A f p) :
    r ∈ placeCaps (A.tables returns w) A.isKnownLocal (collectContext (A.tables returns w) f) p.1 ↔
      Collected A.base p.1 r ∨ ∃ name, Calls p.1 name ∧ r ∈ w.entry name := by
  obtain ⟨e, c⟩ := p
  cases e with
  | fnCall callee args span =>
    rw [placeCaps, Finset.mem_union, mem_collectCallee hhot h (hp.call callee args span rfl),
      mem_calleeValue]
    constructor
    · rintro ((hpath | ⟨name, hname, hb | hext | hreach⟩) | hvalue)
      · exact .inl (.inl hpath)
      · exact .inl (.inr (.inl ⟨name, hname, .inl hb⟩))
      · exact .inl (.inr (.inl ⟨name, hname, .inr hext⟩))
      · exact .inr ⟨name, hname, hreach⟩
      · exact .inl (.inr (.inr hvalue))
    · rintro ((hpath | ⟨name, hname, hb | hext⟩ | hvalue) | ⟨name, hname, hreach⟩)
      · exact .inl (.inl hpath)
      · exact .inl (.inr ⟨name, hname, .inl hb⟩)
      · exact .inl (.inr ⟨name, hname, .inr (.inl hext)⟩)
      · exact .inr hvalue
      · exact .inl (.inr ⟨name, hname, .inr (.inr hreach)⟩)
  | methodCall object method args span =>
    have hextra : (A.tables returns w).accumulateHotExtraCaps
        (collectContext (A.tables returns w) f) method args true = ∅ := if_neg (hhot method)
    have hfield : (A.tables returns w).resolveMethodFieldInvokeCaps
        (collectContext (A.tables returns w) f) object method = ∅ :=
      if_neg (hp.method object method args span rfl returns w _)
    rw [placeCaps, hextra, hfield, Finset.union_empty, Finset.union_empty]
    exact ⟨fun hr => .inr ⟨method, rfl, hr⟩, fun hr => hr.elim False.elim (by
      rintro ⟨_, hname, hr⟩; exact hname ▸ hr)⟩
  | staticMethodCall typeName method args span =>
    have hextra : (A.tables returns w).accumulateHotExtraCaps
        (collectContext (A.tables returns w) f) method args true = ∅ := if_neg (hhot method)
    rw [placeCaps, hextra, Finset.union_empty]
    exact ⟨fun hr => .inr ⟨method, rfl, hr⟩, fun hr => hr.elim False.elim (by
      rintro ⟨_, hname, hr⟩; exact hname ▸ hr)⟩
  | pipeExpr left right span =>
    rw [placeCaps, mem_calleeValue]
    exact ⟨.inl, fun hr => hr.resolve_right fun hr => hr.elim fun _ hr => hr.1⟩
  | identifier name span =>
    rw [placeCaps, mem_collectValue]
    exact ⟨.inl, fun hr => hr.resolve_right fun hr => hr.elim fun _ hr => hr.1⟩
  | _ =>
    exact ⟨fun hr => absurd hr (Finset.notMem_empty r), fun hr => hr.elim False.elim fun hr =>
      hr.elim fun _ hr => hr.1.elim⟩

theorem mem_collect :
    r ∈ A.collect returns f w ↔
      ∃ p ∈ f.places, Collected A.base p.1 r ∨ ∃ name, Calls p.1 name ∧ r ∈ w.entry name := by
  have hblock := collects_block (A.tables returns w) A.isKnownLocal
    (collectContext (A.tables returns w) f) patternNames f.body (.function f.params) r
  refine hblock.trans ?_
  constructor
  · rintro ⟨p, hp, hr⟩
    exact ⟨p, hp, (mem_placeCaps hhot h (h.places p hp)).mp hr⟩
  · rintro ⟨p, hp, hr⟩
    exact ⟨p, hp, (mem_placeCaps hhot h (h.places p hp)).mpr hr⟩

end

end Collecting

/-! ## What is asked for in such a body -/

/-- Something in the list needs the capability. -/
def Asks (ds : List Demand) (r : Capability) : Prop := ∃ d ∈ ds, r ∈ d.required

theorem asks_append {ds ds' : List Demand} : Asks (ds ++ ds') r ↔ Asks ds r ∨ Asks ds' r := by
  constructor
  · rintro ⟨d, hd, hr⟩
    exact (List.mem_append.mp hd).imp (fun hd => ⟨d, hd, hr⟩) fun hd => ⟨d, hd, hr⟩
  · rintro (⟨d, hd, hr⟩ | ⟨d, hd, hr⟩)
    · exact ⟨d, List.mem_append_left _ hd, hr⟩
    · exact ⟨d, List.mem_append_right _ hd, hr⟩

theorem asks_nil : Asks [] r ↔ False :=
  ⟨fun ⟨_, hd, _⟩ => absurd hd List.not_mem_nil, False.elim⟩

theorem asks_singleton {d : Demand} : Asks [d] r ↔ r ∈ d.required :=
  ⟨fun ⟨_, hd, hr⟩ => List.mem_singleton.mp hd ▸ hr, fun hr => ⟨d, List.mem_singleton_self d, hr⟩⟩

theorem asks_need {code what : String} {cap : Option Capability} :
    Asks (cap.toList.map (need code what span)) r ↔ cap = some r := by
  cases cap with
  | none => exact asks_nil.trans ⟨False.elim, fun h => by cases h⟩
  | some cap =>
    refine asks_singleton.trans ?_
    show r ∈ ({cap} : Finset Capability) ↔ _
    rw [Finset.mem_singleton, Option.some_inj]
    exact eq_comm

/-- A demand for a set is made where the set is not empty. -/
theorem asks_set {s : CapabilitySet} {code : String} {message : List Capability → String} :
    Asks (if s = ∅ then [] else [⟨s, code, message, span⟩]) r ↔ r ∈ s := by
  by_cases h : s = ∅
  · rw [if_pos h, h, asks_nil]
    exact ⟨False.elim, fun hr => absurd hr (Finset.notMem_empty r)⟩
  · rw [if_neg h, asks_singleton]

section Asking

variable {A} {f : FunctionDecl} {returns : R} {w : CapabilityMap} {ctx : Context (Frame L)}
variable {c : Lexical} {r : Capability}

/-- The context is the one of a place in the body of a function, in a scope that is enforced. -/
structure InBody (A : Analysis R L) (f : FunctionDecl) (returns : R) (w : CapabilityMap)
    (ctx : Context (Frame L)) (c : Lexical) : Prop where
  enforces : ctx.enforces (A.tables returns w)
  locals : ctx.currentLocals = c.bound
  outside : ctx.currentActorFnStateFields = ∅
  frame : ctx.frame = (A.tables returns w).functionFrame f.params (some f.body)

/-- What the functions of a name need, by the table. -/
def inTable (w : CapabilityMap) (name : String) (r : Capability) : Prop := r ∈ w.entry name

theorem asks_calleeName {isBuiltinName : Bool} {extra : CapabilitySet}
    (henforces : ctx.enforces (A.tables returns w)) :
    Asks ((A.tables returns w).calleeNameDemands ctx name span isBuiltinName extra args) r ↔
      NameAsked A.base (inTable w) isBuiltinName name args r ∨ r ∈ extra := by
  have hbuiltin : ∀ cap : Option Capability,
      (if isBuiltinName ∧ name ∉ A.base.definedFns then cap else none) = some r ↔
        isBuiltinName ∧ name ∉ A.base.definedFns ∧ cap = some r := by
    intro cap
    split
    · rename_i h
      exact ⟨fun hr => ⟨h.1, h.2, hr⟩, fun hr => hr.2.2⟩
    · rename_i h
      exact ⟨fun hr => (nomatch hr), fun hr => absurd ⟨hr.1, hr.2.1⟩ h⟩
  rw [Tables.calleeNameDemands, if_pos henforces, asks_append, asks_append, asks_need, asks_need,
    asks_set]
  refine (or_congr_left (or_congr_left (hbuiltin _))).trans ?_
  rw [Finset.mem_union, NameAsked, or_assoc, or_assoc, or_assoc]
  rfl

theorem asks_callee (hin : InBody A f returns w ctx c) (hhot : ∀ name, ¬A.isHot name)
    (hcallee : NamedCallee A f c callee) :
    Asks ((A.tables returns w).calleeDemands ctx callee args span) r ↔
      CalleeAsked A.base (inTable w) callee args r := by
  have hroot : Tables.rootsAtLocal ctx callee = false := by
    rw [Tables.rootsAtLocal, Option.any_eq_false]
    rintro ⟨root, path⟩ hpath
    by_cases hne : path = []
    · rw [hne]
      rfl
    · have hunbound := hcallee.root root path hpath hne
      rw [← hin.locals] at hunbound
      show (decide (path ≠ []) && decide (root ∈ ctx.currentLocals)) = false
      rw [decide_eq_false hunbound, Bool.and_false]
  by_cases hsingle : ∃ name, resolvePath callee = [name]
  · obtain ⟨name, hpath⟩ := hsingle
    obtain ⟨hname, hunbound, -⟩ := hcallee.name name hpath
    have hnamed : (A.tables returns w).calleeIsNamed ctx name = true := by
      rw [Tables.calleeIsNamed, hin.locals, decide_eq_true hunbound, Bool.true_and]
      exact hname
    have hextra : (A.tables returns w).accumulateHotExtraCaps ctx name args false = ∅ :=
      if_neg (hhot name)
    have hdemands : (A.tables returns w).calleeDemands ctx callee args span =
        ((A.tables returns w).requiredCapabilityForPath [name]).toList.map
          (need "E0502" ("call to `" ++ "::".intercalate [name] ++ "`") span) ++
        (A.tables returns w).calleeNameDemands ctx name span true ∅ args := by
      simp only [Tables.calleeDemands, hpath, hnamed, hextra, not_true_eq_false, false_and,
        if_false, List.append_nil]
    rw [hdemands, asks_append, asks_need, asks_calleeName hin.enforces, CalleeAsked, hpath]
    refine or_congr_right ⟨fun h => ⟨name, rfl, h.resolve_right (Finset.notMem_empty r)⟩, ?_⟩
    rintro ⟨name', heq, hasked⟩
    rw [List.singleton_inj.mp heq]
    exact .inl hasked
  · have hmany := hcallee.not_short fun name hpath => hsingle ⟨name, hpath⟩
    have hdirect : ¬((resolvePath callee).length ≤ 1 ∨ Tables.rootsAtLocal ctx callee = true) := by
      rw [hroot]
      exact fun h => h.elim hmany Bool.false_ne_true
    have hdemands : (A.tables returns w).calleeDemands ctx callee args span =
        ((A.tables returns w).requiredCapabilityForPath (resolvePath callee)).toList.map
          (need "E0502" ("call to `" ++ "::".intercalate (resolvePath callee) ++ "`") span) := by
      rw [Tables.calleeDemands]
      split
      rename_i bare named heq
      split at heq
      · rename_i name hpath
        exact absurd ⟨name, hpath⟩ hsingle
      · obtain ⟨rfl, rfl⟩ := Prod.mk.injEq .. ▸ heq
        rw [if_neg fun h => hdirect h.2.1, List.append_nil, List.append_nil]
    rw [hdemands, asks_need, CalleeAsked]
    exact ⟨.inl, fun h => h.resolve_right fun ⟨name, hpath, _⟩ => hsingle ⟨name, hpath⟩⟩

/-- No state of an actor is at hand in a function. -/
theorem mem_actorSelfField {object : Expr} {method : String} (hin : InBody A f returns w ctx c) :
    r ∈ resolveActorSelfFieldInvokeCaps ctx object method ↔ isSelfElement object ∧ r = .all := by
  have haliases : ∀ root, ctx.frame.stateAliases root = none := by
    intro root
    rw [hin.frame]
    rfl
  have hnone : r ∈ (∅ : CapabilitySet) ↔ False ∧ r = .all :=
    ⟨fun hr => absurd hr (Finset.notMem_empty r), fun hr => hr.1.elim⟩
  rw [resolveActorSelfFieldInvokeCaps, isSelfElement]
  cases hpath : decomposeContainerPath object with
  | none => simp
  | some found =>
    obtain ⟨root, path⟩ := found
    by_cases hself : root = "self"
    · subst hself
      cases path with
      | nil => simp [hin.outside]
      | cons step path =>
        cases step with
        | field field => simp [hin.outside]
        | index => simp
    · simp [hself, haliases]

/-- A function that is used as a value has to be held in full. -/
theorem asks_value {code : String} {message : List Capability → String}
    (hlocals : ctx.currentLocals = c.bound) :
    Asks ((if name ∈ ctx.currentLocals then none else w name).toList.map fun caps =>
      ⟨caps, code, message, span⟩) r ↔ name ∉ c.bound ∧ inTable w name r := by
  rw [hlocals, inTable, Sweep.Table.entry]
  by_cases hbound : name ∈ c.bound
  · rw [if_pos hbound]
    exact asks_nil.trans ⟨False.elim, fun h => h.1 hbound⟩
  · rw [if_neg hbound]
    cases w name with
    | none => exact asks_nil.trans ⟨False.elim, fun h => absurd h.2 (Finset.notMem_empty r)⟩
    | some caps => exact asks_singleton.trans ⟨fun h => ⟨hbound, h⟩, And.right⟩

/-- What the walk asks for at a place. -/
theorem asks_demands (hin : InBody A f returns w ctx p.2) (hhot : ∀ name, ¬A.isHot name)
    (hp : FirstOrderPlace A f p) :
    Asks ((A.tables returns w).demands ctx p.1) r ↔ Asked A.base (inTable w) p.2 p.1 r := by
  obtain ⟨e, c⟩ := p
  cases e with
  | fnCall callee args span => exact asks_callee hin hhot (hp.call callee args span rfl)
  | methodCall object method args span =>
    have hextra : (A.tables returns w).accumulateHotExtraCaps ctx method args true = ∅ :=
      if_neg (hhot method)
    have hfield : (A.tables returns w).resolveMethodFieldInvokeCaps ctx object method = ∅ := by
      refine if_neg ?_
      rw [hin.frame]
      exact hp.method object method args span rfl returns w _
    rw [Tables.demands, asks_calleeName hin.enforces, hextra, hfield, Finset.empty_union,
      Finset.empty_union]
    exact or_congr_right (mem_actorSelfField hin)
  | staticMethodCall typeName method args span =>
    have hextra : (A.tables returns w).accumulateHotExtraCaps ctx method args true = ∅ :=
      if_neg (hhot method)
    rw [Tables.demands, asks_calleeName hin.enforces, hextra]
    refine (or_iff_left (Finset.notMem_empty r)).trans (or_congr_left ?_)
    constructor
    · rintro ⟨hgated, hbuiltin⟩
      exact ⟨(Bool.and_eq_true_iff.mp hgated).2, hbuiltin⟩
    · rintro ⟨htype, hdef, hbuiltin⟩
      refine ⟨Bool.and_eq_true_iff.mpr ⟨?_, htype⟩, hdef, hbuiltin⟩
      exact Option.isSome_iff_exists.mpr ⟨r, hbuiltin⟩
  | pipeExpr left right span =>
    rw [Tables.demands]
    by_cases hcall : isCall right
    · rw [if_pos hcall, asks_nil]
      exact ⟨False.elim, fun h => h.1 hcall⟩
    · rw [if_neg hcall, asks_callee hin hhot (hp.pipe left right span rfl hcall)]
      exact ⟨fun h => ⟨hcall, h⟩, And.right⟩
  | identifier name span =>
    rw [Tables.demands, Tables.valueDemands, if_pos hin.enforces, asks_append, asks_append,
      asks_need, asks_need, asks_value hin.locals, or_assoc]
    refine or_congr_right (or_congr_left ?_)
    show (if name ∉ A.base.definedFns then A.requiredCapabilityForBuiltin name else none) = _ ↔ _
    split
    · rename_i hdef
      exact ⟨fun h => ⟨hdef, h⟩, And.right⟩
    · rename_i hdef
      exact ⟨fun h => (nomatch h), fun h => absurd h.1 hdef⟩
  | _ => exact asks_nil

end Asking

/-! ## What is reported in such a body -/

theorem report_eq_nil_iff {d : Demand} {caps : CapabilitySet} :
    d.report (some caps) = [] ↔ ∀ r ∈ d.required, caps.satisfiesRequired r := by
  constructor
  · exact fun h r hr => Demand.granted h hr
  · exact fun h => if_pos (decide_eq_true h)

theorem reports_eq_nil_iff {F : Type} {T : Tables F} {ctx : Context F} :
    T.reports ctx e = [] ↔
      (∀ d ∈ T.demands ctx e, d.report ctx.currentCaps = []) ∧ escalations e = [] := by
  rw [Tables.reports]
  split
  · rw [List.append_eq_nil_iff, List.flatMap_eq_nil_iff, and_comm]
  · rw [List.append_eq_nil_iff, List.flatMap_eq_nil_iff]

/-- The capabilities that a function of this name has cover all that is asked for at the place. -/
def PlaceAccepted {F : Type} (T : Tables F) (w : CapabilityMap) (name : String)
    (p : Expr × Lexical) : Prop :=
  (∀ r, Asked T (inTable w) p.2 p.1 r → CapabilitySet.satisfiesRequired (w.entry name) r) ∧ escalations p.1 = []

variable {σ : Checker (Frame L)}

section Reporting

variable {A} {f : FunctionDecl} {returns : R} {w : CapabilityMap}

theorem reports_iff {ctx : Context (Frame L)} (hin : InBody A f returns w ctx p.2)
    (hcaps : ctx.currentCaps = some (w.entry f.name)) (hhot : ∀ name, ¬A.isHot name)
    (hp : FirstOrderPlace A f p) :
    (A.tables returns w).reports ctx p.1 = [] ↔ PlaceAccepted A.base w f.name p := by
  rw [reports_eq_nil_iff, hcaps]
  refine and_congr_left fun _ => ?_
  constructor
  · intro h r hr
    obtain ⟨d, hd, hrequired⟩ := (asks_demands hin hhot hp).mpr hr
    exact report_eq_nil_iff.mp (h d hd) r hrequired
  · intro h d hd
    exact report_eq_nil_iff.mpr fun r hr => h r ((asks_demands hin hhot hp).mp ⟨d, hd, hr⟩)

/-- The walk over the body, in the scope of the function. -/
theorem errors_body (hhot : ∀ name, ¬A.isHot name) (h : FirstOrderBody A f)
    (hscopes : σ.scopeStack = [⟨w.entry f.name, true⟩])
    (hlocals : σ.currentLocals = paramNames f.params) (houtside : σ.currentActorFnStateFields = ∅)
    (hframe : σ.frame = (A.tables returns w).functionFrame f.params (some f.body)) :
    (checkBlock (A.tables returns w) f.body σ).errors = σ.errors ↔
      ∀ p ∈ f.places, PlaceAccepted A.base w f.name p := by
  obtain ⟨-, -, -, new, hvisits, herrors, hnew⟩ := logs_block (A.tables returns w) f.body σ
  have hagrees : Agrees [⟨w.entry f.name, true⟩] σ.toContext (.function f.params) :=
    ⟨hlocals, hscopes⟩
  obtain ⟨-, new', hvisits', hplaces⟩ :=
    walk_block (A.tables returns w) patternNames f.body (.function f.params) σ hagrees
  obtain rfl : new = new' := List.append_cancel_left (hvisits.symm.trans hvisits')
  have hplace : ∀ v p, VisitOf [⟨w.entry f.name, true⟩] v p → v ∈ new → p ∈ f.places →
      ((A.tables returns w).reports v.ctx v.expr = [] ↔ PlaceAccepted A.base w f.name p) := by
    intro v p hvisit hv hp
    obtain ⟨hexpr, hbound, hstack⟩ := hvisit
    rw [(h.places p hp).denied] at hstack
    have hcaps : v.ctx.currentCaps = some (w.entry f.name) := by
      rw [Context.currentCaps, hstack]
      rfl
    have henforces : v.ctx.enforces (A.tables returns w) = true := by
      rw [Context.enforces, Context.hasAnnotatedScope, hstack]
      exact Bool.or_true _
    rw [hexpr]
    exact reports_iff ⟨henforces, hbound, (hnew v hv).1.trans houtside, (hnew v hv).2.trans hframe⟩
      hcaps hhot (h.places p hp)
  rw [herrors, List.append_right_eq_self, reported, List.flatMap_eq_nil_iff]
  constructor
  · intro hnil p hp
    obtain ⟨v, hv, hvisit⟩ := ListRel.exists_mem_left hplaces hp
    exact (hplace v p hvisit hv hp).mp (hnil v hv)
  · intro haccepted v hv
    obtain ⟨p, hp, hvisit⟩ := ListRel.exists_mem_right hplaces hv
    exact (hplace v p hvisit hv hp).mpr (haccepted p hp)

end Reporting

/-! ## The functions of a module -/

mutual

/-- The functions with a body, those of `extern` blocks included: the inference passes over these. -/
def declBodies (inExtern : Bool) : Decl → List (Bool × FunctionDecl)
  | .function name _ params _ (some body) _ _ annotations _ _ =>
    [(inExtern, ⟨name, hasCapabilitiesAnnotation annotations, body, params⟩)]
  | .impl _ _ _ methods _ _ => bodies inExtern methods
  | .trait _ _ methods _ _ _ => bodies inExtern methods
  | .externBlock _ items _ _ => bodies true items
  | _ => []

def bodies (inExtern : Bool) : List Decl → List (Bool × FunctionDecl)
  | [] => []
  | d :: ds => declBodies inExtern d ++ bodies inExtern ds

end

def asFunction : Decl → Option FunctionDecl
  | .function name _ params _ (some body) _ _ annotations _ _ =>
    some ⟨name, hasCapabilitiesAnnotation annotations, body, params⟩
  | _ => none

mutual

theorem mem_declBodies {f : FunctionDecl} (inExtern : Bool) : (d : Decl) →
    ((false, f) ∈ declBodies inExtern d ↔ inExtern = false ∧ f ∈ declFunctions d)
  | .function name _ params _ (some body) _ _ annotations _ _ => by
    show (false, f) ∈ [_] ↔ _ ∧ f ∈ [_]
    rw [List.mem_singleton, List.mem_singleton, Prod.mk.injEq]
    exact and_congr_left fun _ => eq_comm
  | .impl _ _ _ methods _ _ | .trait _ _ methods _ _ _ => mem_bodies inExtern methods
  | .externBlock _ items _ _ =>
    ⟨fun h => (nomatch ((mem_bodies true items).mp h).1), fun h => absurd h.2 List.not_mem_nil⟩
  | .function _ _ _ _ none _ _ _ _ _ | .struct .. | .enum .. | .typeAlias .. | .actor ..
  | .importDecl .. | .const .. =>
    ⟨fun h => absurd h List.not_mem_nil, fun h => absurd h.2 List.not_mem_nil⟩

theorem mem_bodies {f : FunctionDecl} (inExtern : Bool) : (ds : List Decl) →
    ((false, f) ∈ bodies inExtern ds ↔ inExtern = false ∧ f ∈ collectFunctions ds)
  | [] => ⟨fun h => absurd h List.not_mem_nil, fun h => absurd h.2 List.not_mem_nil⟩
  | d :: ds => by
    rw [bodies, collectFunctions, List.mem_append, List.mem_append, mem_declBodies inExtern d,
      mem_bodies inExtern ds, and_or_left]

end

section Arrivals

variable {F : Type} (T : Tables F)

mutual

/-- The walk comes to every function. -/
theorem filterMap_arrivals (inExtern : Bool) : (d : Decl) → (σ : Checker F) →
    ((arrivals T d σ).filterMap fun p => asFunction p.1) =
      (declBodies inExtern d).map Prod.snd
  | .function _ _ _ _ (some _) _ _ _ _ _, _ => rfl
  | .impl _ _ _ methods _ _, σ | .trait _ _ methods _ _ _, σ =>
    filterMap_arrivalsAll inExtern methods σ
  | .externBlock _ items _ _, _ => filterMap_arrivalsAll true items _
  | .function _ _ _ _ none _ _ _ _ _, _ | .struct .., _ | .enum .., _ | .typeAlias .., _
  | .actor .., _ | .importDecl .., _ | .const .., _ => rfl

theorem filterMap_arrivalsAll (inExtern : Bool) : (ds : List Decl) → (σ : Checker F) →
    ((arrivalsAll T ds σ).filterMap fun p => asFunction p.1) = (bodies inExtern ds).map Prod.snd
  | [], _ => rfl
  | d :: ds, σ => by
    rw [arrivalsAll, bodies, List.filterMap_append, List.map_append,
      filterMap_arrivals inExtern d σ, filterMap_arrivalsAll inExtern ds]

end

end Arrivals

/-- A function without an annotation, other than `main`. -/
def isInterior : Decl → Bool
  | .function name _ _ _ _ _ _ annotations _ _ =>
    name ≠ "main" && hasCapabilitiesAnnotation annotations = false
  | _ => false

section Functions

variable {A} {returns : R} {w : CapabilityMap}

theorem unknownCapabilities_eq_nil {annotations : List Annotation}
    (h : hasCapabilitiesAnnotation annotations = false) : unknownCapabilities annotations = [] := by
  have hnil : (annotations.filter fun a => a.name = "capabilities") = [] :=
    List.filter_eq_nil_iff.mpr fun a ha hname =>
      Bool.false_ne_true (h.symm.trans (List.any_eq_true.mpr ⟨a, ha, hname⟩))
  rw [unknownCapabilities, hnil]
  rfl

/-- The walk over a function without an annotation. -/
theorem errors_function (hmode : A.mode = .inferred) (hhot : ∀ name, ¬A.isHot name) {d : Decl}
    (hd : isInterior d) (hfn : asFunction d = some f) (h : FirstOrderBody A f) (hσ : Outside σ) :
    (checkDecl (A.tables returns w) d σ).errors = σ.errors ↔
      ∀ p ∈ f.places, PlaceAccepted A.base w f.name p := by
  cases d with
  | function name _ params _ body _ _ annotations _ span =>
    cases body with
    | none => cases hfn
    | some body =>
      obtain rfl := Option.some_inj.mp hfn
      obtain ⟨hmain, hannotated⟩ := Bool.and_eq_true_iff.mp hd
      have hannotated : hasCapabilitiesAnnotation annotations = false :=
        of_decide_eq_true hannotated
      have hscope : (A.tables returns w).functionScope name annotations =
          ⟨w.entry name, true⟩ := by
        have hboundary : hasCapabilitiesAnnotation annotations ∨ name = "main" → False := by
          rw [hannotated]
          exact fun h => h.elim Bool.false_ne_true (of_decide_eq_true (p := name ≠ "main") hmain)
        have hinferred : (A.tables returns w).mode = .inferred := hmode
        simp only [Tables.functionScope, hinferred, if_neg hboundary]
        rfl
      obtain ⟨⟨stack, depth, locals, typed, transparent, fields, frame⟩, diagnostics, visits⟩ := σ
      obtain ⟨rfl, rfl⟩ : stack = [] ∧ fields = ∅ := hσ
      have hbody := errors_body (A := A) (w := w) hhot h (σ := {
        scopeStack := [⟨w.entry name, true⟩]
        currentFnEntryScopeDepth := 1
        currentLocals := paramNames params
        currentFnTypedParams := fnTypedNames (A.tables returns w) params
        transparentLambdaParams := transparent
        currentActorFnStateFields := ∅
        frame := (A.tables returns w).functionFrame params (some body)
        diagnostics := diagnostics
        visits := visits }) rfl rfl rfl rfl
      have hparent : attenuation "function" name (CapabilitySet.fromAnnotations annotations) span
          ([] : List CapabilityScope).head? = [] := rfl
      refine Iff.trans ?_ hbody
      show (checkFunction _ name annotations (some body) span _).errors = _ ↔ _
      rw [checkFunction]
      simp only [unknownCapabilities_eq_nil hannotated, hscope, hparent, Checker.report,
        List.append_nil]
      exact Iff.rfl
  | _ => cases hd

/-- A function without a body. -/
theorem errors_signature {d : Decl} (hd : isInterior d) (hfn : asFunction d = none) (hσ : Outside σ)
    :
    (checkDecl (A.tables returns w) d σ).errors = σ.errors := by
  cases d with
  | function name _ params _ body _ _ annotations _ span =>
    cases body with
    | some body => cases hfn
    | none =>
      have hannotated : hasCapabilitiesAnnotation annotations = false :=
        of_decide_eq_true (Bool.and_eq_true_iff.mp hd).2
      obtain ⟨⟨stack, depth, locals, typed, transparent, fields, frame⟩, diagnostics, visits⟩ := σ
      obtain ⟨rfl, rfl⟩ : stack = [] ∧ fields = ∅ := hσ
      have hparent : attenuation "function" name (CapabilitySet.fromAnnotations annotations) span
          ([] : List CapabilityScope).head? = [] := rfl
      show (checkFunction (A.tables returns w) name annotations none span _).errors = _
      rw [checkFunction]
      simp only [unknownCapabilities_eq_nil hannotated, hparent, Checker.report, List.append_nil]
      rfl
  | _ => cases hd

theorem isInterior_iff {d : Decl} (hfn : asFunction d = some f) :
    isInterior d ↔ ¬f.annotated ∧ f.name ≠ "main" := by
  cases d with
  | function name _ params _ body _ _ annotations _ span =>
    cases body with
    | none => cases hfn
    | some body =>
      obtain rfl := Option.some_inj.mp hfn
      simp [isInterior, and_comm]
  | _ => cases hfn

end Functions

/-! ## What the inference finds -/

namespace Analysis

/-- What the functions of a name need: what is declared, and what the bodies of those without an
annotation collect, following the calls. -/
inductive Requires : String → Capability → Prop where
  | declared {name : String} {r : Capability} : r ∈ A.declared.entry name → Requires name r
  | collected {f : FunctionDecl} {p : Expr × Lexical} {r : Capability} : f ∈ A.unannotated →
      p ∈ f.places → Collected A.base p.1 r → Requires f.name r
  | called {f : FunctionDecl} {p : Expr × Lexical} {name : String} {r : Capability} :
      f ∈ A.unannotated → p ∈ f.places → Calls p.1 name → Requires name r → Requires f.name r

/-- The functions with a body; the flag is set in an `extern` block. -/
def functions : List (Bool × FunctionDecl) := bodies false A.declarations

/-- No function takes a function value or calls one, and there are no `deny!` blocks. -/
structure FirstOrder : Prop where
  hot : ∀ name, ¬A.isHot name
  bodies : ∀ q ∈ A.functions, FirstOrderBody A q.2

end Analysis

section Inferred

variable {A}

theorem mem_unannotated : f ∈ A.unannotated ↔ (false, f) ∈ A.functions ∧ f.annotated = false := by
  rw [Analysis.unannotated, List.mem_filter, Analysis.functions, mem_bodies]
  simp

/-- The inference finds what is required, and nothing else. -/
theorem mem_inferred_iff (h : A.FirstOrder) {returns : R} {m : CapabilityMap}
    (hm : Sweep.Solves (A.unannotated.map fun f => ⟨f.name, A.collect returns f⟩) A.declared m) :
    r ∈ m.entry name ↔ A.Requires name r := by
  have hbody : ∀ f ∈ A.unannotated, FirstOrderBody A f := fun f hf =>
    h.bodies (false, f) (mem_unannotated.mp hf).1
  constructor
  · refine hm.least A.Requires ?_ (fun _ _ ha => .declared ha) name r
    intro rule hrule w hw a ha
    obtain ⟨f, hf, rfl⟩ := List.mem_map.mp hrule
    obtain ⟨p, hp, hcollected | ⟨callee, hcalls, hreach⟩⟩ := (mem_collect h.hot (hbody f hf)).mp ha
    · exact .collected hf hp hcollected
    · exact .called hf hp hcalls (hw callee a hreach)
  · intro hr
    have hholds : ∀ f ∈ A.unannotated, ∀ a ∈ A.collect returns f m, a ∈ m.entry f.name :=
      fun f hf => hm.holds _ (List.mem_map_of_mem hf)
    induction hr with
    | declared hr => exact hm.grows _ hr
    | @collected f p r hf hp hr =>
      exact hholds f hf r ((mem_collect h.hot (hbody f hf)).mpr ⟨p, hp, .inl hr⟩)
    | @called f p callee r hf hp hcalls _ ih =>
      exact hholds f hf r ((mem_collect h.hot (hbody f hf)).mpr ⟨p, hp, .inr ⟨callee, hcalls, ih⟩⟩)

/-- What is declared is in the inferred table already. -/
theorem entry_merge {m m' : CapabilityMap} (h : ∀ name, m.entry name ⊆ m'.entry name)
    (name : String) : (CapabilityMap.merge m m').entry name = m'.entry name := by
  have hsub := h name
  rw [Sweep.Table.entry, Sweep.Table.entry] at hsub
  rw [Sweep.Table.entry, Sweep.Table.entry, CapabilityMap.merge]
  cases hinferred : m' name with
  | none =>
    rw [hinferred] at hsub
    exact Finset.subset_empty.mp hsub
  | some caps =>
    cases hdeclared : m name with
    | none => rfl
    | some existing =>
      rw [hinferred, hdeclared] at hsub
      exact Finset.union_eq_right.mpr hsub

/-- The table that the walk is given. -/
theorem checkedTables_spec (hmode : A.mode = .inferred) (h : A.FirstOrder) :
    ∃ returns w, A.checkedTables = some (A.tables returns w) ∧ inTable w = A.Requires := by
  obtain ⟨baseline, hbaseline, -⟩ := Sweep.solve_spec
    (A.unannotated.map fun f => ⟨f.name, A.collect A.noReturns f⟩) A.declared
  obtain ⟨m, hm, hsolves⟩ := Sweep.solve_spec
    (A.unannotated.map fun f => ⟨f.name, A.collect (A.fnReturnClosureCaps baseline) f⟩) A.declared
  refine ⟨A.fnReturnClosureCaps baseline, A.declared.merge m, ?_, ?_⟩
  · rw [Analysis.checkedTables, Analysis.computeInferredCapabilities, hbaseline]
    show (if A.mode = .inferred then _ else _) = _
    rw [if_pos hmode, Analysis.computeInferredCapabilities, hm]
    rfl
  · funext name r
    rw [inTable, entry_merge hsolves.grows]
    exact propext (mem_inferred_iff h hsolves)

end Inferred

/-! ## Agreement -/

/-- In the walk over the module, nothing is reported as an error in a function without an
annotation, other than `main`. -/
def Accepts {F : Type} (T : Tables F) (ds : List Decl) : Prop :=
  ∀ p ∈ arrivalsAll T ds (start T), isInterior p.1 → (checkDecl T p.1 p.2).errors = p.2.errors

/-- The check goes through, and accepts the functions without an annotation. -/
def InferenceAgrees : Prop := ∃ T, A.checkedTables = some T ∧ Accepts T A.declarations

/-- What the functions of the name need grants the capability. -/
def Granted (name : String) (r : Capability) : Prop := ∃ c, A.Requires name c ∧ c.satisfies r

/-- What a function needs grants what is asked for and not collected. -/
structure Covered : Prop where
  inferred : ∀ f, (false, f) ∈ A.functions → ¬f.annotated → f.name ≠ "main" → ∀ p ∈ f.places,
    ∀ r, Uncollected A.base A.Requires p.2 p.1 r → Granted A f.name r
  external : ∀ f, (true, f) ∈ A.functions → ¬f.annotated → f.name ≠ "main" → ∀ p ∈ f.places,
    ∀ r, Asked A.base A.Requires p.2 p.1 r → Granted A f.name r
  escalation : ∀ q ∈ A.functions, ¬q.2.annotated → q.2.name ≠ "main" → ∀ p ∈ q.2.places,
    escalations p.1 = []

section Agreement

variable {A}

theorem satisfiesRequired_iff {w : CapabilityMap} (hw : inTable w = A.Requires) :
    CapabilitySet.satisfiesRequired (w.entry name) r ↔ Granted A name r := by
  rw [CapabilitySet.satisfiesRequired, decide_eq_true_eq, Granted, ← hw]
  rfl

/-- The functions that the walk reports nothing in. -/
theorem accepts_iff (hmode : A.mode = .inferred) (h : A.FirstOrder) {returns : R}
    {w : CapabilityMap} : Accepts (A.tables returns w) A.declarations ↔
      ∀ q ∈ A.functions, ¬q.2.annotated → q.2.name ≠ "main" → ∀ p ∈ q.2.places,
        PlaceAccepted A.base w q.2.name p := by
  have houtside := outside_arrivalsAll (A.tables returns w) A.declarations
    (start (A.tables returns w)) ⟨rfl, rfl⟩
  have harrivals := filterMap_arrivalsAll (A.tables returns w) false A.declarations
    (start (A.tables returns w))
  have hdecl : ∀ p ∈ arrivalsAll (A.tables returns w) A.declarations (start (A.tables returns w)),
      ∀ f, asFunction p.1 = some f → ∃ q ∈ A.functions, q.2 = f := by
    intro p hp f hf
    have hmem : f ∈ A.functions.map Prod.snd := by
      rw [Analysis.functions, ← harrivals]
      exact List.mem_filterMap.mpr ⟨p, hp, hf⟩
    exact List.mem_map.mp hmem
  constructor
  · intro haccepts q hq hannotated hmain
    have hmem : q.2 ∈ A.functions.map Prod.snd := List.mem_map_of_mem hq
    rw [Analysis.functions, ← harrivals] at hmem
    obtain ⟨p, hp, hf⟩ := List.mem_filterMap.mp hmem
    have hinterior := (isInterior_iff hf).mpr ⟨hannotated, hmain⟩
    exact (errors_function hmode h.hot hinterior hf (h.bodies q hq) (houtside p hp)).mp
      (haccepts p hp hinterior)
  · intro hplaces p hp hinterior
    cases hf : asFunction p.1 with
    | none => exact errors_signature hinterior hf (houtside p hp)
    | some f =>
      obtain ⟨q, hq, rfl⟩ := hdecl p hp f hf
      obtain ⟨hannotated, hmain⟩ := (isInterior_iff hf).mp hinterior
      exact (errors_function hmode h.hot hinterior hf (h.bodies q hq) (houtside p hp)).mpr
        (hplaces q hq hannotated hmain)

/-- What is collected at a place of a function, the function needs. -/
theorem requires_of_asked (hf : f ∈ A.unannotated) (hp : p ∈ f.places)
    (h : Asked A.base A.Requires p.2 p.1 r) :
    A.Requires f.name r ∨ Uncollected A.base A.Requires p.2 p.1 r := by
  rcases asked_cases h with hcollected | ⟨callee, hcalls, hreach⟩ | hrest
  · exact .inl (.collected hf hp hcollected)
  · exact .inl (.called hf hp hcalls hreach)
  · exact .inr hrest

/-- **Inference agrees with enforcement** just where what a function needs by its calls covers what
its pipes, static calls and values need besides. -/
theorem inferenceAgrees_iff (hmode : A.mode = .inferred) (h : A.FirstOrder) :
    InferenceAgrees A ↔ Covered A := by
  obtain ⟨returns, w, hchecked, hw⟩ := checkedTables_spec hmode h
  have hagrees : InferenceAgrees A ↔ Accepts (A.tables returns w) A.declarations := by
    rw [InferenceAgrees, hchecked]
    exact ⟨fun ⟨T, hT, haccepts⟩ => Option.some_inj.mp hT ▸ haccepts, fun h => ⟨_, rfl, h⟩⟩
  rw [hagrees, accepts_iff hmode h]
  constructor
  · intro haccepted
    refine ⟨?_, ?_, fun q hq hannotated hmain p hp => (haccepted q hq hannotated hmain p hp).2⟩
    · intro f hf hannotated hmain p hp r hr
      rw [← satisfiesRequired_iff hw]
      refine (haccepted (false, f) hf hannotated hmain p hp).1 r ?_
      rw [hw]
      exact asked_of_uncollected hr
    · intro f hf hannotated hmain p hp r hr
      rw [← satisfiesRequired_iff hw]
      refine (haccepted (true, f) hf hannotated hmain p hp).1 r ?_
      rwa [hw]
  · rintro hcovered ⟨inExtern, f⟩ hf hannotated hmain p hp
    refine ⟨fun r hr => ?_, hcovered.escalation _ hf hannotated hmain p hp⟩
    rw [hw] at hr
    rw [satisfiesRequired_iff hw]
    cases inExtern with
    | true => exact hcovered.external f hf hannotated hmain p hp r hr
    | false =>
      have hmem : f ∈ A.unannotated := mem_unannotated.mpr ⟨hf, Bool.eq_false_iff.mpr hannotated⟩
      rcases requires_of_asked hmem hp hr with hrequires | hrest
      · exact ⟨r, hrequires, r.satisfies_refl⟩
      · exact hcovered.inferred f hf hannotated hmain p hp r hrest

end Agreement

end FirstOrder

/-! ## A bare pipe -/

/-- Nothing is known of function values. -/
def noValues : FunctionValues Unit Unit where
  isHot := fun _ => false
  hotCaps := fun _ _ _ _ _ _ => ∅
  isFieldCall := fun _ _ _ => false
  fieldCaps := fun _ _ _ _ _ => ∅
  directInvokeCaps := fun _ _ _ _ => {.all}
  isKnownLocal := fun _ _ => false
  noReturns := ()
  fnReturnClosureCaps := fun _ => ()
  localsOf := fun _ _ _ _ => ()
  noLocals := ()
  stateAliases := fun _ _ => none

def pipeSpan : Span := ⟨0, 0, 0⟩

/-- `fn save(x) { file_write(x, x) }` and `fn helper(x) { x |> save }` -/
def pipeAnalysis : Analysis Unit Unit where
  toFunctionValues := noValues
  declarations := [
    .function "save" [] [.mk "x" none none pipeSpan] none
      (some (.mk [.exprStmt (.fnCall (.identifier "file_write" pipeSpan)
        [.identifier "x" pipeSpan, .identifier "x" pipeSpan] pipeSpan) pipeSpan] pipeSpan))
      false false [] [] pipeSpan,
    .function "helper" [] [.mk "x" none none pipeSpan] none
      (some (.mk [.exprStmt (.pipeExpr (.identifier "x" pipeSpan) (.identifier "save" pipeSpan)
        pipeSpan) pipeSpan] pipeSpan))
      false false [] [] pipeSpan]
  mode := .inferred
  requiredCapabilityForBuiltin := fun name => if name = "file_write" then some .fsWrite else none
  requiredCapabilityForNativeSymbol := fun _ => none
  isKnownBuiltinName := fun name => name = "file_write"

instance {F : Type} (T : Tables F) (ds : List Decl) : Decidable (Accepts T ds) :=
  inferInstanceAs (Decidable (∀ p ∈ arrivalsAll T ds (start T), isInterior p.1 →
    (checkDecl T p.1 p.2).errors = p.2.errors))

theorem pipe_not_accepted :
    (pipeAnalysis.checkedTables.map fun T => decide (Accepts T pipeAnalysis.declarations)) =
      some false := by
  decide

theorem pipe_disagrees : ¬InferenceAgrees pipeAnalysis := by
  rintro ⟨T, hT, haccepts⟩
  have heval := pipe_not_accepted
  rw [hT, Option.map_some, Option.some_inj, decide_eq_false_iff_not] at heval
  exact heval haccepts

/-- A callee that is a bare name. -/
theorem namedCallee_identifier {R L : Type} {A : Analysis R L} (hname : A.base.isGlobalName name)
    (hbound : name ∉ c.bound)
    (hlocal : ∀ returns w own, ¬A.isKnownLocal (A.localsOf returns w own f.body) name) :
    NamedCallee A f c (.identifier name span) where
  path := List.cons_ne_nil _ _
  name := by
    intro name' heq
    rw [← List.singleton_inj.mp heq]
    exact ⟨hname, hbound, hlocal⟩
  root := by
    intro root path heq hne
    exact absurd (congrArg Prod.snd (Option.some_inj.mp heq)).symm hne

theorem firstOrderPlace_identifier {R L : Type} {A : Analysis R L} (hdenied : c.denied = []) :
    FirstOrderPlace A f (.identifier name span, c) where
  denied := hdenied
  call := fun _ _ _ h => (nomatch h)
  pipe := fun _ _ _ h => (nomatch h)
  method := fun _ _ _ _ h => (nomatch h)

theorem pipe_firstOrder : pipeAnalysis.FirstOrder where
  hot := fun _ => Bool.false_ne_true
  bodies := by
    have hx : ∀ f c, c.denied = [] → FirstOrderPlace pipeAnalysis f (.identifier "x" pipeSpan, c) :=
      fun _ _ h => firstOrderPlace_identifier h
    refine List.forall_mem_cons.mpr ⟨⟨?_, ?_⟩, List.forall_mem_cons.mpr ⟨⟨?_, ?_⟩, ?_⟩⟩
    · exact List.forall_mem_cons.mpr ⟨Bool.false_ne_true, fun _ h => absurd h List.not_mem_nil⟩
    · refine List.forall_mem_cons.mpr ⟨⟨rfl, ?_, ?_, ?_⟩, List.forall_mem_cons.mpr ⟨hx _ _ rfl,
        List.forall_mem_cons.mpr ⟨hx _ _ rfl, fun _ h => absurd h List.not_mem_nil⟩⟩⟩
      · rintro callee args span heq
        obtain ⟨rfl, -, -⟩ := Expr.fnCall.inj heq
        exact namedCallee_identifier (by decide) (by decide)
          fun _ _ _ => Bool.false_ne_true
      · exact fun _ _ _ h => (nomatch h)
      · exact fun _ _ _ _ h => (nomatch h)
    · exact List.forall_mem_cons.mpr ⟨Bool.false_ne_true, fun _ h => absurd h List.not_mem_nil⟩
    · refine List.forall_mem_cons.mpr ⟨⟨rfl, ?_, ?_, ?_⟩, List.forall_mem_cons.mpr ⟨hx _ _ rfl,
        fun _ h => absurd h List.not_mem_nil⟩⟩
      · exact fun _ _ _ h => (nomatch h)
      · rintro left right span heq -
        obtain ⟨-, rfl, -⟩ := Expr.pipeExpr.inj heq
        exact namedCallee_identifier (by decide) (by decide)
          fun _ _ _ => Bool.false_ne_true
      · exact fun _ _ _ _ h => (nomatch h)
    · exact fun _ h => absurd h List.not_mem_nil

/-- A function that is piped into is not counted as called. -/
theorem pipe_counterexample :
    pipeAnalysis.mode = .inferred ∧ pipeAnalysis.FirstOrder ∧ ¬InferenceAgrees pipeAnalysis :=
  ⟨rfl, pipe_firstOrder, pipe_disagrees⟩

/-- What `helper` asks for is not covered. -/
theorem pipe_not_covered : ¬Covered pipeAnalysis := fun h =>
  pipe_disagrees ((inferenceAgrees_iff rfl pipe_firstOrder).mpr h)


end Kryos.Capabilities
