import Mathlib.Data.Finset.Sort
import Mathlib.Data.List.Destutter
import Mathlib.Data.String.Basic
import Kryos.Capabilities.Enforcement
import Kryos.Package.RegistryIndex

/-!
# Capability badges

A published version of a package carries a badge: the names of the capabilities that its annotated
functions declare. `pkg audit` compares the badges of the two latest versions by name. What the
functions are granted is a different order: `all` grants every capability, and a family its parts.

## Main results

* `CapsBadge.mem_dangerousEscalations_iff`, `CapsBadge.mem_newCapabilities_iff` — what the
  comparison finds, in terms of the two programs
* `CapsBadge.auditSound_iff` — when the comparison misses no escalation
-/

namespace Kryos.Package

open Ast Capabilities

/-! ## The badge -/

structure CapsBadge where
  schema : String
  capabilities : List String
  dangerous : List String
  annotationCoveragePct : ℕ
  inferredUncovered : List String
  deriving DecidableEq, Repr

namespace CapsBadge

def SCHEMA : String := "kryos-caps/1"

/-- `CapsBadge::default` -/
def empty : CapsBadge := ⟨"", [], [], 0, []⟩

def dangerousCaps : List String := ["ffi", "process"]

/-- `sort` and `dedup` -/
def sortDedup (names : List String) : List String :=
  (names.mergeSort fun a b => decide (a ≤ b)).destutter (· ≠ ·)

def coverage (annotatedFns totalFns : ℕ) : ℕ :=
  if totalFns = 0 then 0
  else
    let raw := min (annotatedFns * 100) (2 ^ 64 - 1) / totalFns
    min raw 100

def fromCaps (capabilities : List String) (annotatedFns totalFns : ℕ)
    (inferredUncovered : List String) : CapsBadge :=
  let capabilities := sortDedup capabilities
  { schema := SCHEMA
    capabilities
    dangerous := capabilities.filter fun c => c ∈ dangerousCaps
    annotationCoveragePct := coverage annotatedFns totalFns
    inferredUncovered := sortDedup inferredUncovered }

def dangerousEscalations (badge prev : CapsBadge) : List String :=
  badge.dangerous.filter fun c => c ∉ prev.dangerous

def newCapabilities (badge prev : CapsBadge) : List String :=
  badge.capabilities.filter fun c => c ∉ prev.capabilities

end CapsBadge

/-! ## Extraction -/

/-- The names in the annotation of a function, if it has one. -/
def annotatedCaps (annotations : List Annotation) : Option (List String) :=
  if hasCapabilitiesAnnotation annotations then
    let set := CapabilitySet.fromAnnotations annotations
    if set.has .all then some ["all"]
    else some ((Capability.byName.filter fun c => c ∈ set).map Capability.display)
  else none

/-- The running totals. -/
structure Tally where
  union : Finset String
  annotatedFns : ℕ
  totalFns : ℕ

def tallyFn (tally : Tally) (annotations : List Annotation) : Tally :=
  match annotatedCaps annotations with
  | some caps =>
    ⟨caps.foldl (fun union c => insert c union) tally.union, tally.annotatedFns + 1,
      tally.totalFns + 1⟩
  | none => ⟨tally.union, tally.annotatedFns, tally.totalFns + 1⟩

/-- The annotations of a function declaration. -/
def fnAnnotations : Decl → Option (List Annotation)
  | .function _ _ _ _ _ _ _ annotations _ _ => some annotations
  | _ => none

/-- The functions that the walk meets in a declaration. -/
def visitedFns : Decl → List (List Annotation)
  | .function _ _ _ _ _ _ _ annotations _ _ => [annotations]
  | .impl _ _ _ methods _ _ => methods.filterMap fnAnnotations
  | .trait _ _ methods _ _ _ => methods.filterMap fnAnnotations
  | _ => []

/-- The functions that the walk meets in the files of a package that were read and parsed. -/
def visited (files : List Module) : List (List Annotation) :=
  files.flatMap fun module => module.declarations.flatMap visitedFns

def extractPackageCaps (files : List Module) : CapsBadge :=
  let tally := (visited files).foldl tallyFn ⟨∅, 0, 0⟩
  CapsBadge.fromCaps (tally.union.sort (· ≤ ·)) tally.annotatedFns tally.totalFns []

/-! ## The audit -/

/-- How `pkg audit` ends, with the names it prints. -/
inductive AuditResult where
  | nothingToCompare
  | noEscalation
  /-- a warning; the command succeeds -/
  | adds (newCaps : List String)
  /-- exit code 1 -/
  | failDangerous (escalations : List String)
  /-- exit code 1, under `--strict` -/
  | failStrict (newCaps : List String)
  deriving DecidableEq, Repr

namespace AuditResult

def exitCode : AuditResult → ℕ
  | failDangerous _ | failStrict _ => 1
  | _ => 0

end AuditResult

/-- The two latest versions, compared. -/
def auditPair (prev latest : RegistryEntry CapsBadge) (strict : Bool) : AuditResult :=
  let latestCaps := latest.capabilities.getD .empty
  let prevCaps := prev.capabilities.getD .empty
  let escalations := latestCaps.dangerousEscalations prevCaps
  let newCaps := latestCaps.newCapabilities prevCaps
  if escalations ≠ [] then .failDangerous escalations
  else if newCaps = [] then .noEscalation
  else if strict then .failStrict newCaps
  else .adds newCaps

/-- `entries.sort_by(|a, b| a.version.cmp(&b.version))` -/
def sortEntries (entries : List (RegistryEntry CapsBadge)) : List (RegistryEntry CapsBadge) :=
  entries.mergeSort fun a b => (a.version.cmp b.version).isLE

/-- `pkg audit`, from the entries of the package in the registry. -/
def audit (entries : List (RegistryEntry CapsBadge)) (strict : Bool) : AuditResult :=
  match (sortEntries entries).reverse with
  | latest :: prev :: _ => auditPair prev latest strict
  | _ => .nothingToCompare

/-! ## Declared authority -/

/-- The functions of a declaration that an annotation can speak for. The handlers of an actor are
under the annotation of the actor; the items of an `extern` block have none. -/
def declaredFns : Decl → List (List Annotation)
  | .function _ _ _ _ _ _ _ annotations _ _ => [annotations]
  | .impl _ _ _ methods _ _ => methods.filterMap fnAnnotations
  | .trait _ _ methods _ _ _ => methods.filterMap fnAnnotations
  | .actor _ _ handlers annotations _ _ => handlers.map fun _ => annotations
  | _ => []

def declared (files : List Module) : List (List Annotation) :=
  files.flatMap fun module => module.declarations.flatMap declaredFns

/-- An annotated function among `fns` declares an authority that grants `c`. -/
def Grants (fns : List (List Annotation)) (c : Capability) : Prop :=
  ∃ annotations ∈ fns, hasCapabilitiesAnnotation annotations ∧
    CapabilitySet.satisfiesRequired (CapabilitySet.fromAnnotations annotations) c

/-- The newer version is granted `ffi` or `process`, and the older one neither. -/
def Escalates (older newer : List Module) : Prop :=
  (Grants (declared newer) .ffi ∨ Grants (declared newer) .process) ∧
    ¬ (Grants (declared older) .ffi ∨ Grants (declared older) .process)

/-- The newer version is granted a capability that the older one is not. -/
def Widens (older newer : List Module) : Prop :=
  ∃ c, Grants (declared newer) c ∧ ¬ Grants (declared older) c

/-- The command fails for a package whose two latest versions are these. -/
def AuditFails (older newer : List Module) (strict : Bool) : Prop :=
  ∀ entries earlier prev latest, sortEntries entries = earlier ++ [prev, latest] →
    prev.capabilities = some (extractPackageCaps older) →
    latest.capabilities = some (extractPackageCaps newer) →
    (audit entries strict).exitCode = 1

/-- The audit of these two versions misses no escalation. -/
structure AuditSound (older newer : List Module) : Prop where
  dangerous : Escalates older newer →
    (extractPackageCaps newer).dangerousEscalations (extractPackageCaps older) ≠ [] ∧
      ∀ strict, AuditFails older newer strict
  strict : Widens older newer → AuditFails older newer true


/-! ## What a badge lists -/

/-- An annotated function among `fns` declares `c`, and not `all` in its place. -/
def Lists (fns : List (List Annotation)) (c : Capability) : Prop :=
  ∃ annotations ∈ fns, hasCapabilitiesAnnotation annotations ∧
    c ∈ CapabilitySet.fromAnnotations annotations ∧
    (Capability.all ∈ CapabilitySet.fromAnnotations annotations → c = .all)

theorem display_injective : Function.Injective Capability.display := by
  intro a b
  revert a b
  decide

theorem mem_byName (c : Capability) : c ∈ Capability.byName := by
  revert c
  decide

variable {s : String}

theorem mem_destutter_iff {names : List String} : s ∈ names.destutter (· ≠ ·) ↔ s ∈ names := by
  have hrun : ∀ (l : List String) (a : String), s ∈ a :: l → s ∈ l.destutter' (· ≠ ·) a := by
    intro l
    induction l with
    | nil => exact fun a h => h
    | cons b l ih =>
      intro a h
      by_cases hab : a = b
      · subst hab
        rw [List.destutter'_cons_neg _ (by simp)]
        refine ih a ?_
        rcases List.mem_cons.mp h with rfl | h
        · exact List.mem_cons_self
        · exact h
      · rw [List.destutter'_cons_pos _ hab]
        rcases List.mem_cons.mp h with rfl | h
        · exact List.mem_cons_self
        · exact List.mem_cons_of_mem a (ih b h)
  constructor
  · exact fun h => (List.destutter_sublist _ names).subset h
  · intro h
    cases names with
    | nil => exact h
    | cons a l => exact hrun l a h

namespace CapsBadge

theorem mem_sortDedup_iff {names : List String} : s ∈ sortDedup names ↔ s ∈ names := by
  rw [sortDedup, mem_destutter_iff, List.mem_mergeSort]

end CapsBadge

variable {annotations : List Annotation}

/-- The names that the walk takes from one function. -/
theorem mem_annotatedCaps_iff :
    (∃ caps, annotatedCaps annotations = some caps ∧ s ∈ caps) ↔
      ∃ c, s = c.display ∧ Lists [annotations] c := by
  simp only [Lists, List.mem_singleton, exists_eq_left, annotatedCaps, CapabilitySet.has, or_self]
  by_cases hannotated : hasCapabilitiesAnnotation annotations
  · rw [if_pos hannotated]
    by_cases hall : Capability.all ∈ CapabilitySet.fromAnnotations annotations
    · rw [if_pos (decide_eq_true hall)]
      constructor
      · rintro ⟨caps, hcaps, hs⟩
        cases hcaps
        exact ⟨.all, List.mem_singleton.mp hs, hannotated, hall, fun _ => rfl⟩
      · rintro ⟨c, rfl, -, -, hc⟩
        cases hc hall
        exact ⟨_, rfl, List.mem_singleton.mpr rfl⟩
    · rw [if_neg (by simpa using hall)]
      constructor
      · rintro ⟨caps, hcaps, hs⟩
        cases hcaps
        obtain ⟨c, hc, rfl⟩ := List.mem_map.mp hs
        exact ⟨c, rfl, hannotated, of_decide_eq_true (List.mem_filter.mp hc).2,
          fun h => absurd h hall⟩
      · rintro ⟨c, rfl, -, hc, -⟩
        exact ⟨_, rfl, List.mem_map_of_mem
          (List.mem_filter.mpr ⟨mem_byName c, decide_eq_true hc⟩)⟩
  · rw [if_neg hannotated]
    constructor
    · rintro ⟨caps, hcaps, -⟩
      cases hcaps
    · rintro ⟨c, -, h, -⟩
      exact absurd h hannotated

theorem mem_foldl_insert {caps : List String} {union : Finset String} :
    s ∈ caps.foldl (fun union c => insert c union) union ↔ s ∈ union ∨ s ∈ caps := by
  induction caps generalizing union with
  | nil => simp
  | cons c caps ih =>
    rw [List.foldl_cons, ih, Finset.mem_insert, List.mem_cons]
    tauto

theorem mem_tallyFn_iff {tally : Tally} :
    s ∈ (tallyFn tally annotations).union ↔
      s ∈ tally.union ∨ ∃ c, s = c.display ∧ Lists [annotations] c := by
  rw [← mem_annotatedCaps_iff, tallyFn]
  split
  · next caps hcaps =>
    show s ∈ caps.foldl _ _ ↔ _
    rw [mem_foldl_insert, hcaps]
    simp
  · next hcaps =>
    rw [hcaps]
    simp

variable {fns : List (List Annotation)} {c : Capability}

theorem lists_cons_iff : Lists (annotations :: fns) c ↔ Lists [annotations] c ∨ Lists fns c := by
  simp only [Lists, List.mem_cons, List.not_mem_nil, or_false, exists_eq_or_imp, exists_eq_left]

theorem mem_foldl_tallyFn_iff {tally : Tally} :
    s ∈ (fns.foldl tallyFn tally).union ↔
      s ∈ tally.union ∨ ∃ c, s = c.display ∧ Lists fns c := by
  induction fns generalizing tally with
  | nil => simp [Lists]
  | cons annotations fns ih =>
    rw [List.foldl_cons, ih, mem_tallyFn_iff]
    simp only [@lists_cons_iff _ fns, and_or_left, exists_or, or_assoc]

variable {files : List Module}

/-- The capabilities of a badge are those that the visited functions list. -/
theorem mem_capabilities_iff :
    s ∈ (extractPackageCaps files).capabilities ↔
      ∃ c, s = c.display ∧ Lists (visited files) c := by
  show s ∈ CapsBadge.sortDedup _ ↔ _
  rw [CapsBadge.mem_sortDedup_iff, Finset.mem_sort, mem_foldl_tallyFn_iff]
  simp

theorem display_mem_capabilities_iff :
    c.display ∈ (extractPackageCaps files).capabilities ↔ Lists (visited files) c := by
  rw [mem_capabilities_iff]
  constructor
  · rintro ⟨c', heq, h⟩
    rwa [display_injective heq]
  · exact fun h => ⟨c, rfl, h⟩

theorem mem_dangerous_iff :
    s ∈ (extractPackageCaps files).dangerous ↔
      s ∈ (extractPackageCaps files).capabilities ∧ s ∈ CapsBadge.dangerousCaps := by
  show s ∈ List.filter _ _ ↔ _
  rw [List.mem_filter, decide_eq_true_eq]
  rfl

/-! ## What the comparison finds -/

variable {older newer : List Module}

namespace CapsBadge

theorem mem_newCapabilities_iff :
    s ∈ (extractPackageCaps newer).newCapabilities (extractPackageCaps older) ↔
      ∃ c, s = c.display ∧ Lists (visited newer) c ∧ ¬ Lists (visited older) c := by
  rw [newCapabilities, List.mem_filter, decide_eq_true_eq, mem_capabilities_iff]
  constructor
  · rintro ⟨⟨c, rfl, hnew⟩, hold⟩
    exact ⟨c, rfl, hnew, mt display_mem_capabilities_iff.mpr hold⟩
  · rintro ⟨c, rfl, hnew, hold⟩
    exact ⟨⟨c, rfl, hnew⟩, mt display_mem_capabilities_iff.mp hold⟩

theorem mem_dangerousEscalations_iff :
    s ∈ (extractPackageCaps newer).dangerousEscalations (extractPackageCaps older) ↔
      s ∈ (extractPackageCaps newer).newCapabilities (extractPackageCaps older) ∧
        s ∈ dangerousCaps := by
  simp only [dangerousEscalations, newCapabilities, List.mem_filter, decide_eq_true_eq,
    mem_dangerous_iff]
  tauto

end CapsBadge

/-- Some dangerous capability is listed by the newer version and not by the older one. -/
theorem dangerousEscalations_ne_nil_iff :
    (extractPackageCaps newer).dangerousEscalations (extractPackageCaps older) ≠ [] ↔
      ∃ c, (c = .ffi ∨ c = .process) ∧ Lists (visited newer) c ∧ ¬ Lists (visited older) c := by
  rw [ne_eq, List.eq_nil_iff_forall_not_mem]
  simp only [not_forall, not_not, CapsBadge.mem_dangerousEscalations_iff, CapsBadge.mem_newCapabilities_iff]
  have hdangerous : ∀ c : Capability,
      c.display ∈ CapsBadge.dangerousCaps ↔ c = .ffi ∨ c = .process := by decide
  constructor
  · rintro ⟨s, ⟨c, rfl, hnew, hold⟩, hs⟩
    exact ⟨c, (hdangerous c).mp hs, hnew, hold⟩
  · rintro ⟨c, hc, hnew, hold⟩
    exact ⟨_, ⟨c, rfl, hnew, hold⟩, (hdangerous c).mpr hc⟩

theorem newCapabilities_ne_nil_iff :
    (extractPackageCaps newer).newCapabilities (extractPackageCaps older) ≠ [] ↔
      ∃ c, Lists (visited newer) c ∧ ¬ Lists (visited older) c := by
  rw [ne_eq, List.eq_nil_iff_forall_not_mem]
  simp only [not_forall, not_not, CapsBadge.mem_newCapabilities_iff]
  constructor
  · rintro ⟨s, c, rfl, h⟩
    exact ⟨c, h⟩
  · rintro ⟨c, h⟩
    exact ⟨_, c, rfl, h⟩

/-! ## When the audit fails -/

theorem exitCode_auditPair (prev latest : RegistryEntry CapsBadge) (strict : Bool) :
    (auditPair prev latest strict).exitCode = 1 ↔
      (latest.capabilities.getD .empty).dangerousEscalations
          (prev.capabilities.getD .empty) ≠ [] ∨
        strict = true ∧ (latest.capabilities.getD .empty).newCapabilities
          (prev.capabilities.getD .empty) ≠ [] := by
  rw [auditPair]
  split
  · next h => exact ⟨fun _ => .inl h, fun _ => rfl⟩
  · next hesc =>
    split
    · next hnew => simp [AuditResult.exitCode, hesc, hnew]
    · next hnew =>
      split
      · next hstrict => simp [AuditResult.exitCode, hnew, hstrict]
      · next hstrict => simp [AuditResult.exitCode, hesc, hstrict]

theorem audit_of_sortEntries {entries earlier : List (RegistryEntry CapsBadge)}
    {prev latest : RegistryEntry CapsBadge} (h : sortEntries entries = earlier ++ [prev, latest])
    (strict : Bool) : audit entries strict = auditPair prev latest strict := by
  rw [audit, h]
  simp

/-- Two published versions, the first before the second. -/
def published (badge : CapsBadge) (major : ℕ) : RegistryEntry CapsBadge :=
  ⟨"", .new major 0 0, [], ∅, [], some badge⟩

theorem sortEntries_published (badge badge' : CapsBadge) :
    sortEntries [published badge 1, published badge' 2] =
      [published badge 1, published badge' 2] := by
  rw [sortEntries]
  refine List.mergeSort_of_pairwise ?_
  rw [List.pairwise_pair]
  rfl

theorem auditFails_iff {strict : Bool} :
    AuditFails older newer strict ↔
      (extractPackageCaps newer).dangerousEscalations (extractPackageCaps older) ≠ [] ∨
        strict = true ∧
          (extractPackageCaps newer).newCapabilities (extractPackageCaps older) ≠ [] := by
  constructor
  · intro h
    have hsort := sortEntries_published (extractPackageCaps older) (extractPackageCaps newer)
    rw [← List.nil_append [published (extractPackageCaps older) 1, _]] at hsort
    have hfails := h _ [] _ _ hsort rfl rfl
    rwa [audit_of_sortEntries hsort, exitCode_auditPair] at hfails
  · intro h entries earlier prev latest hsort hprev hlatest
    rw [audit_of_sortEntries hsort, exitCode_auditPair, hprev, hlatest]
    exact h

/-! ## What is missed -/

theorem Lists.grants (h : Lists fns c) : Grants fns c := by
  obtain ⟨annotations, hmem, hannotated, hc, -⟩ := h
  exact ⟨annotations, hmem, hannotated, decide_eq_true ⟨c, hc, c.satisfies_refl⟩⟩

theorem visitedFns_subset (d : Decl) : visitedFns d ⊆ declaredFns d := by
  cases d with
  | function | impl | trait => exact List.Subset.refl _
  | _ => exact List.nil_subset _

theorem visited_subset (files : List Module) : visited files ⊆ declared files := by
  intro annotations h
  obtain ⟨module, hmodule, hd⟩ := List.mem_flatMap.mp h
  obtain ⟨d, hdecl, hfn⟩ := List.mem_flatMap.mp hd
  exact List.mem_flatMap.mpr ⟨module, hmodule,
    List.mem_flatMap.mpr ⟨d, hdecl, visitedFns_subset d hfn⟩⟩

theorem Grants.mono {fns' : List (List Annotation)} (h : Grants fns c) (hsub : fns ⊆ fns') :
    Grants fns' c := by
  obtain ⟨annotations, hmem, hrest⟩ := h
  exact ⟨annotations, hsub hmem, hrest⟩

/-- The escalations that the badges can show. -/
structure Shown (older newer : List Module) : Prop where
  /-- a function, a method of an impl or a method of a trait names `ffi` or `process`, and not
  `all` with it -/
  dangerous : Escalates older newer → Lists (visited newer) .ffi ∨ Lists (visited newer) .process
  /-- such a function lists a capability that none of the older version lists -/
  strict : Widens older newer → ∃ c, Lists (visited newer) c ∧ ¬ Lists (visited older) c

namespace CapsBadge

/-- **The audit misses no escalation between two versions exactly if the badges can show it.** -/
theorem auditSound_iff (older newer : List Module) :
    AuditSound older newer ↔ Shown older newer := by
  have hstrict : AuditFails older newer true ↔
      ∃ c, Lists (visited newer) c ∧ ¬ Lists (visited older) c := by
    rw [auditFails_iff, dangerousEscalations_ne_nil_iff, newCapabilities_ne_nil_iff]
    constructor
    · rintro (⟨c, -, h⟩ | ⟨-, h⟩)
      · exact ⟨c, h⟩
      · exact h
    · exact fun h => .inr ⟨rfl, h⟩
  constructor
  · rintro ⟨hdangerous, hwidens⟩
    refine ⟨fun h => ?_, fun h => hstrict.mp (hwidens h)⟩
    obtain ⟨c, hc, hnew, -⟩ := dangerousEscalations_ne_nil_iff.mp (hdangerous h).1
    rcases hc with rfl | rfl
    · exact .inl hnew
    · exact .inr hnew
  · rintro ⟨hdangerous, hwidens⟩
    refine ⟨fun h => ?_, fun h => hstrict.mpr (hwidens h)⟩
    -- The older version lists none of the two, since it is granted none.
    have hold : ∀ c, c = .ffi ∨ c = .process → ¬ Lists (visited older) c := by
      rintro c hc hlists
      refine h.2 ?_
      have hgrants := hlists.grants.mono (visited_subset older)
      rcases hc with rfl | rfl
      · exact .inl hgrants
      · exact .inr hgrants
    have hesc : (extractPackageCaps newer).dangerousEscalations (extractPackageCaps older) ≠ [] := by
      rw [dangerousEscalations_ne_nil_iff]
      rcases hdangerous h with hnew | hnew
      · exact ⟨.ffi, .inl rfl, hnew, hold .ffi (.inl rfl)⟩
      · exact ⟨.process, .inr rfl, hnew, hold .process (.inr rfl)⟩
    exact ⟨hesc, fun strict => auditFails_iff.mpr (.inl hesc)⟩

/-- A version with one function, `@capabilities(all) fn f()`. -/
def grantsAll : List Module :=
  [⟨"m", [.function "f" [] [] none none false false [⟨"capabilities", ["all"], ⟨0, 0, 0⟩⟩] []
    ⟨0, 0, 0⟩], ⟨0, 0, 0⟩⟩]

/-- From no authority at all to `all`: the badge lists no dangerous capability. -/
theorem not_auditSound_all : ¬ AuditSound [] grantsAll := by
  intro h
  have hall : CapabilitySet.fromAnnotations [⟨"capabilities", ["all"], ⟨0, 0, 0⟩⟩] = {.all} := by
    decide
  have hescalates : Escalates [] grantsAll := by
    refine ⟨.inl ⟨_, List.mem_singleton.mpr rfl, rfl, ?_⟩, ?_⟩
    · rw [hall]
      decide
    · rintro (⟨_, h, -⟩ | ⟨_, h, -⟩) <;> cases h
  obtain ⟨c, hc, ⟨annotations, hmem, -, hcaps, -⟩, -⟩ :=
    dangerousEscalations_ne_nil_iff.mp (h.dangerous hescalates).1
  cases List.mem_singleton.mp hmem
  rw [hall, Finset.mem_singleton] at hcaps
  subst hcaps
  exact absurd hc (by decide)

end CapsBadge

end Kryos.Package
