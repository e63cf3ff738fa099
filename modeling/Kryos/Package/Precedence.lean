import Kryos.Package.Resolve
import Kryos.Package.VersionText
import Mathlib.Data.Char

/-!
# Precedence of versions

The order that semantic versioning gives to versions, against the order that the package manager
uses. The three numbers are compared alike. Two pre-releases are lists of identifiers with dots
between them for the one, and texts for the other; and a requirement is met by every version in its
range, pre-releases included.

## Main results

* `cmp_eq_precedence_iff` — when two versions are ordered as they should
* `matches_iff` — which versions with other numbers a requirement admits
* `semver_iff` — when requirements pick what they should
-/

namespace Kryos.Package

namespace Version

/-! ## The order of semantic versioning -/

/-- A numeric identifier consists of digits only. -/
def isNumeric (x : List Char) : Bool := !x.isEmpty && x.all Char.isDigit

/-- Numeric identifiers are compared as numbers, and are below all others. -/
def compareIds (x y : List Char) : Ordering :=
  match isNumeric x, isNumeric y with
  | true, true => compare (Nat.ofDigitChars 10 x 0) (Nat.ofDigitChars 10 y 0)
  | true, false => .lt
  | false, true => .gt
  | false, false => compare x y

/-- The identifiers of a pre-release. -/
def ids (pre : String) : List (List Char) := splitAt '.' pre.toList

/-- Identifiers are compared one by one, and a list is above the lists it begins with. -/
def precedencePre : Option String → Option String → Ordering
  | none, none => .eq
  | none, some _ => .gt
  | some _, none => .lt
  | some a, some b => List.compareLex compareIds (ids a) (ids b)

def cmpCore (v w : Version) : Ordering :=
  (compare v.major w.major).then <| (compare v.minor w.minor).then (compare v.patch w.patch)

def precedence (v w : Version) : Ordering := (cmpCore v w).then (precedencePre v.pre w.pre)

def SameCore (v w : Version) : Prop :=
  v.major = w.major ∧ v.minor = w.minor ∧ v.patch = w.patch

instance : DecidableRel SameCore := fun _ _ => inferInstanceAs (Decidable (_ ∧ _))

theorem cmpCore_eq_iff {v w : Version} : cmpCore v w = .eq ↔ SameCore v w := by
  simp [cmpCore, SameCore, Ordering.then_eq_eq]

theorem cmp_eq (v w : Version) : v.cmp w = (cmpCore v w).then (cmpPre v.pre w.pre) := by
  rw [cmp, cmpCore, Ordering.then_assoc, Ordering.then_assoc]

theorem then_of_ne {o : Ordering} (h : o ≠ .eq) (p : Ordering) : o.then p = o := by
  cases o with
  | eq => exact absurd rfl h
  | lt | gt => rfl

theorem cmp_of_not_sameCore {v w : Version} (h : ¬ SameCore v w) : v.cmp w = cmpCore v w := by
  rw [cmp_eq, then_of_ne (mt cmpCore_eq_iff.mp h)]

/-! ## Identifiers as texts -/

/-- The text `x`, with a dot behind it when `more` identifiers follow, is continued in the other one
by a character below the dot. -/
def cutShort (more : Bool) : List Char → List Char → Bool
  | [], c :: _ => more && c < '.'
  | c :: x, d :: y => c = d && cutShort more x y
  | _, [] => false

/-- The pre-releases of these identifiers are ordered as texts as they are as identifiers. -/
def IdsAgree : List (List Char) → List (List Char) → Prop
  | x :: xs, y :: ys =>
    if x = y then IdsAgree xs ys
    else
      match isNumeric x, isNumeric y with
      | true, true => compare x y =
          (compare (Nat.ofDigitChars 10 x 0) (Nat.ofDigitChars 10 y 0)).then
            (List.compareLex compareIds xs ys)
      | true, false => compare x y = .lt ∧ cutShort (!xs.isEmpty) x y = false
      | false, true => compare x y = .gt ∧ cutShort (!ys.isEmpty) y x = false
      | false, false => cutShort (!xs.isEmpty) x y = false ∧ cutShort (!ys.isEmpty) y x = false
  | _, _ => True

/-- The text behind an identifier. -/
def behind (xs : List (List Char)) : List Char := xs.flatMap ('.' :: ·)

theorem exists_ids (s : List Char) :
    ∃ x xs, splitAt '.' s = x :: xs ∧ s = x ++ behind xs ∧ ∀ y ∈ x :: xs, '.' ∉ y := by
  obtain ⟨x, xs, hx⟩ := List.exists_cons_of_ne_nil (splitAt_ne_nil '.' s)
  refine ⟨x, xs, hx, ?_, fun y hy => sep_not_mem_of_mem_splitAt (hx ▸ hy)⟩
  induction s generalizing x xs with
  | nil =>
    cases hx
    rfl
  | cons c s ih =>
    obtain ⟨y, ys, hy⟩ := List.exists_cons_of_ne_nil (splitAt_ne_nil '.' s)
    rw [splitAt, hy] at hx
    split_ifs at hx with hc
    · cases hx
      rw [ih _ _ hy, hc]
      simp [behind]
    · cases hx
      rw [ih _ _ hy, List.cons_append]

theorem then_compare_of_ne {c d : Char} (h : c ≠ d) (o : Ordering) :
    (compare c d).then o = compare c d :=
  then_of_ne (mt Std.LawfulEqOrd.eq_of_compare h) o

/-- What is behind an identifier against a further character of the other one. -/
theorem compare_behind_nil {d : Char} (hd : d ≠ '.') (xs : List (List Char)) (l : List Char) :
    compare (behind xs) (d :: l) = if !xs.isEmpty && d < '.' then .gt else .lt := by
  cases xs with
  | nil => rfl
  | cons x xs =>
    show compare ('.' :: _) (d :: l) = _
    rw [List.compare_cons_cons, then_compare_of_ne (Ne.symm hd)]
    by_cases hlt : d < '.'
    · simp [compare, compareOfLessAndEq, hlt, Char.lt_asymm hlt, Ne.symm hd]
    · have hgt : '.' < d := lt_of_le_of_ne (not_lt.mp hlt) (Ne.symm hd)
      simp [compare, compareOfLessAndEq, hlt, hgt]

/-- Where two identifiers differ, what is behind them matters only as a dot. -/
theorem compare_behind {x y : List Char} (hne : x ≠ y) (hx : '.' ∉ x) (hy : '.' ∉ y)
    (xs ys : List (List Char)) :
    compare (x ++ behind xs) (y ++ behind ys) =
      if cutShort (!xs.isEmpty) x y then .gt
      else if cutShort (!ys.isEmpty) y x then .lt
      else compare x y := by
  induction x generalizing y with
  | nil =>
    obtain ⟨d, y, rfl⟩ := List.exists_cons_of_ne_nil (Ne.symm hne)
    rw [List.nil_append, List.cons_append, compare_behind_nil fun e => hy (e ▸ List.mem_cons_self)]
    rfl
  | cons c x ih =>
    cases y with
    | nil =>
      rw [List.nil_append, List.cons_append, Std.OrientedOrd.eq_swap,
        compare_behind_nil fun e => hx (e ▸ List.mem_cons_self)]
      simp only [cutShort, Bool.false_eq_true, if_false, List.compare_cons_nil]
      rw [apply_ite Ordering.swap]
      rfl
    | cons d y =>
      rw [List.cons_append, List.cons_append, List.compare_cons_cons, List.compare_cons_cons]
      by_cases hcd : c = d
      · subst hcd
        have hxy : x ≠ y := fun e => hne (congrArg (c :: ·) e)
        rw [ih hxy (fun h => hx (List.mem_cons_of_mem _ h)) fun h => hy (List.mem_cons_of_mem _ h)]
        simp only [cutShort, decide_true, Bool.true_and, Std.ReflCmp.compare_self, Ordering.then]
      · simp only [then_compare_of_ne hcd, cutShort, hcd, Ne.symm hcd, decide_false,
          Bool.false_and, Bool.false_eq_true, if_false]

theorem compare_append_left (x l m : List Char) : compare (x ++ l) (x ++ m) = compare l m := by
  induction x with
  | nil => rfl
  | cons c x ih =>
    have hc : compare c c = .eq := Std.ReflCmp.compare_self
    rw [List.cons_append, List.cons_append, List.compare_cons_cons, hc, ih]
    rfl

/-- An identifier that is cut short is below the other one, which is not numeric then. -/
theorem compare_of_cutShort {more : Bool} {x y : List Char} (h : cutShort more x y = true) :
    compare x y = .lt ∧ ¬ y.all Char.isDigit = true := by
  induction x generalizing y with
  | nil =>
    cases y with
    | nil => cases h
    | cons d y =>
      rw [cutShort, Bool.and_eq_true, decide_eq_true_eq] at h
      refine ⟨rfl, fun hd => ?_⟩
      rw [List.all_cons, Bool.and_eq_true] at hd
      have hlo := (Decimal.toNat_of_isDigit hd.1).1
      have hhi : d.toNat < 46 := h.2
      omega
  | cons c x ih =>
    cases y with
    | nil => cases h
    | cons d y =>
      rw [cutShort, Bool.and_eq_true, decide_eq_true_eq] at h
      obtain ⟨rfl, h⟩ := h
      obtain ⟨hlt, hall⟩ := ih h
      have hc : compare c c = .eq := Std.ReflCmp.compare_self
      rw [List.compare_cons_cons, hc, hlt, List.all_cons, Bool.and_eq_true]
      exact ⟨rfl, fun hd => hall hd.2⟩

theorem cutShort_of_isNumeric {more : Bool} {x y : List Char} (h : isNumeric y = true) :
    cutShort more x y = false := by
  rw [isNumeric, Bool.and_eq_true] at h
  exact Bool.eq_false_iff.mpr fun hcut => (compare_of_cutShort hcut).2 h.2

theorem compareIds_self (x : List Char) : compareIds x x = .eq := by
  have htext : compare x x = .eq := Std.ReflCmp.compare_self
  rw [compareIds]
  cases isNumeric x
  · exact htext
  · exact Nat.compare_eq_eq.mpr rfl

/-- **When two lists of identifiers are ordered as their texts.** -/
theorem compare_behind_iff {xs ys : List (List Char)} (hxs : ∀ x ∈ xs, '.' ∉ x)
    (hys : ∀ y ∈ ys, '.' ∉ y) :
    compare (behind xs) (behind ys) = List.compareLex compareIds xs ys ↔ IdsAgree xs ys := by
  induction xs generalizing ys with
  | nil => cases ys <;> exact iff_of_true rfl trivial
  | cons x xs ih =>
    cases ys with
    | nil => exact iff_of_true rfl trivial
    | cons y ys =>
      obtain ⟨hx, hxs'⟩ := List.forall_mem_cons.mp hxs
      obtain ⟨hy, hys'⟩ := List.forall_mem_cons.mp hys
      have htext : compare (behind (x :: xs)) (behind (y :: ys)) =
          compare (x ++ behind xs) (y ++ behind ys) := by
        show compare (['.'] ++ (x ++ behind xs)) (['.'] ++ (y ++ behind ys)) = _
        exact compare_append_left _ _ _
      rw [htext, List.compareLex_cons_cons, IdsAgree]
      by_cases hxy : x = y
      · subst hxy
        rw [if_pos rfl, compare_append_left, compareIds_self]
        exact ih hxs' hys'
      rw [if_neg hxy, compare_behind hxy hx hy, compareIds]
      have hne : compare x y ≠ .eq := mt Std.LawfulEqOrd.eq_of_compare hxy
      have hlt := @compare_of_cutShort (!xs.isEmpty) x y
      have hgt := @compare_of_cutShort (!ys.isEmpty) y x
      rw [Std.OrientedOrd.eq_swap (a := y)] at hgt
      cases hnx : isNumeric x <;> cases hny : isNumeric y
      · rw [then_of_ne hne]
        split_ifs with h h'
        · simp [h, (hlt h).1]
        · simp [h', Ordering.swap_eq_iff_eq_swap.mp (hgt h').1]
        · simp [h, h']
      · rw [cutShort_of_isNumeric hny, if_neg Bool.false_ne_true]
        split_ifs with h <;> simp [h]
      · rw [cutShort_of_isNumeric hnx, if_neg Bool.false_ne_true]
        split_ifs with h <;> simp [h]
      · rw [cutShort_of_isNumeric hnx, cutShort_of_isNumeric hny, if_neg Bool.false_ne_true,
          if_neg Bool.false_ne_true]

/-- The pre-releases, if both versions have one and the numbers are the same, are ordered as texts
as they are as identifiers. -/
def PreAgree (v w : Version) : Prop :=
  SameCore v w → ∀ a b, v.pre = some a → w.pre = some b → IdsAgree (ids a) (ids b)

theorem compare_eq_lt_iff (l m : List Char) : compare l m = .lt ↔ l < m := by
  induction l generalizing m with
  | nil => cases m <;> simp
  | cons c l ih =>
    cases m with
    | nil => simp
    | cons d m =>
      rw [List.compare_cons_cons, Ordering.then_eq_lt, List.cons_lt_cons_iff, ih]
      simp [compare, compareOfLessAndEq_eq_lt, compareOfLessAndEq_eq_eq]

/-- Texts are compared character by character. -/
theorem compare_toList (a b : String) : compare a b = compare a.toList b.toList := by
  have hlt : compare a.toList b.toList = .lt ↔ a < b := compare_eq_lt_iff _ _
  have heq : compare a.toList b.toList = .eq ↔ a = b :=
    Std.LawfulEqOrd.compare_eq_iff_eq.trans String.toList_inj
  show compareOfLessAndEq a b = _
  rw [compareOfLessAndEq]
  split_ifs with h h'
  · exact (hlt.mpr h).symm
  · exact (heq.mpr h').symm
  · cases hc : compare a.toList b.toList with
    | lt => exact absurd (hlt.mp hc) h
    | eq => exact absurd (heq.mp hc) h'
    | gt => rfl

theorem cmpPre_eq_iff (a b : Option String) :
    cmpPre a b = precedencePre a b ↔
      ∀ s t, a = some s → b = some t → IdsAgree (ids s) (ids t) := by
  cases a with
  | none => cases b <;> simp [cmpPre, precedencePre]
  | some s =>
    cases b with
    | none => simp [cmpPre, precedencePre]
    | some t =>
      obtain ⟨x, xs, hx, hs, hxs⟩ := exists_ids s.toList
      obtain ⟨y, ys, hy, ht, hys⟩ := exists_ids t.toList
      have htext : compare s t = compare (behind (x :: xs)) (behind (y :: ys)) := by
        rw [compare_toList, hs, ht]
        exact (compare_append_left ['.'] _ _).symm
      rw [cmpPre, precedencePre, htext, ids, ids, hx, hy, compare_behind_iff hxs hys]
      constructor
      · rintro h _ _ ⟨⟩ ⟨⟩
        rwa [ids, ids, hx, hy]
      · intro h
        have := h s t rfl rfl
        rwa [ids, ids, hx, hy] at this

/-- **When two versions are ordered as they should.** -/
theorem cmp_eq_precedence_iff (v w : Version) : v.cmp w = v.precedence w ↔ PreAgree v w := by
  rw [cmp_eq, precedence, PreAgree]
  by_cases h : SameCore v w
  · rw [cmpCore_eq_iff.mpr h, ← cmpPre_eq_iff]
    exact ⟨fun heq _ => heq, fun heq => heq h⟩
  · rw [then_of_ne (mt cmpCore_eq_iff.mp h), then_of_ne (mt cmpCore_eq_iff.mp h)]
    exact iff_of_true rfl fun h' => absurd h' h

/-! ## The greatest version -/

instance : Std.TransCmp fun v w : Version => cmpPre v.pre w.pre where
  eq_swap {v w} := by
    cases v.pre <;> cases w.pre <;> simp only [cmpPre, Ordering.swap]
    exact Std.OrientedOrd.eq_swap
  isLE_trans {u v w} := by
    cases u.pre <;> cases v.pre <;> cases w.pre <;> simp [cmpPre]
    exact Std.TransOrd.isLE_trans

instance : Std.TransCmp Version.cmp :=
  inferInstanceAs (Std.TransCmp (compareLex (compareOn Version.major)
    (compareLex (compareOn Version.minor) (compareLex (compareOn Version.patch)
      fun v w => cmpPre v.pre w.pre))))

theorem isLE_cmp_self (v : Version) : (v.cmp v).isLE := by
  have heq : v.cmp v = .eq := Std.ReflCmp.compare_self
  rw [heq]
  rfl

end Version

open Version

theorem PackageRegistry.isLE_maxByVersion {ps : List AvailablePackage} {p : AvailablePackage}
    (h : maxByVersion ps = some p) : ∀ q ∈ ps, (q.version.cmp p.version).isLE := by
  cases ps with
  | nil => cases h
  | cons a ps =>
    cases h
    induction ps generalizing a with
    | nil =>
      intro q hq
      rw [List.mem_singleton.mp hq]
      exact isLE_cmp_self a.version
    | cons b ps ih =>
      rw [List.foldl_cons]
      have hle := ih (if a.version.cmp b.version = .gt then a else b)
      have hfirst := hle _ List.mem_cons_self
      -- The one that is kept is not below the other one.
      have hkept : (a.version.cmp (if a.version.cmp b.version = .gt then a else b).version).isLE ∧
          (b.version.cmp (if a.version.cmp b.version = .gt then a else b).version).isLE := by
        split_ifs with hgt
        · have hswap : b.version.cmp a.version = (a.version.cmp b.version).swap :=
            Std.OrientedCmp.eq_swap
          rw [hswap, hgt]
          exact ⟨isLE_cmp_self _, rfl⟩
        · exact ⟨Ordering.isLE_iff_ne_gt.mpr hgt, isLE_cmp_self _⟩
      intro q hq
      rcases List.mem_cons.mp hq with rfl | hq
      · exact Std.TransCmp.isLE_trans hkept.1 hfirst
      rcases List.mem_cons.mp hq with rfl | hq
      · exact Std.TransCmp.isLE_trans hkept.2 hfirst
      · exact hle q (List.mem_cons_of_mem _ hq)

/-! ## Requirements -/

namespace VersionReq

/-- The numbers of the version are outside the range of the requirement. -/
def OutOfRange (r : VersionReq) (v : Version) : Prop :=
  match r.op with
  | .caret => cmpCore v r.version = .lt ∨ v.major ≠ r.version.major ∨
      (r.version.major = 0 ∧ (v.minor ≠ r.version.minor ∨
        (r.version.minor = 0 ∧ v.patch ≠ r.version.patch)))
  | .tilde => cmpCore v r.version = .lt ∨ v.major ≠ r.version.major ∨ v.minor ≠ r.version.minor
  | .exact => True
  | .greaterEq | .greater => cmpCore v r.version = .lt
  | .lessEq | .less => cmpCore v r.version = .gt
  | .wildcard => False

/-- **Which versions with other numbers a requirement admits.** -/
theorem matches_iff {r : VersionReq} {v : Version} (h : ¬ SameCore v r.version) :
    r.matches v = true ↔ ¬ r.OutOfRange v := by
  obtain ⟨op, w⟩ := r
  have hcmp : v.cmp w = cmpCore v w := cmp_of_not_sameCore h
  have hne : cmpCore v w ≠ .eq := mt cmpCore_eq_iff.mp h
  cases op with
  | caret =>
    show matchesCaret _ _ = true ↔ _
    simp only [matchesCaret, OutOfRange, hcmp]
    split_ifs with hlt hmajor hminor
    · simp [hlt]
    · simp [hlt, hmajor]
    · simp [hlt, hminor, not_not.mp hmajor]
    · simp [hlt, not_not.mp hminor, not_not.mp hmajor, and_assoc]
  | tilde =>
    show matchesTilde _ _ = true ↔ _
    simp only [matchesTilde, OutOfRange, hcmp]
    split_ifs with hlt <;> simp [hlt]
  | exact =>
    have hvw : v ≠ w := fun e => h (e ▸ ⟨rfl, rfl, rfl⟩)
    simp [«matches», matchesExact, OutOfRange, hvw]
  | greaterEq => simp [«matches», OutOfRange, hcmp]
  | greater | lessEq | less =>
    simp only [«matches», OutOfRange, hcmp]
    cases hc : cmpCore v w <;> simp_all
  | wildcard => simp [«matches», OutOfRange]

end VersionReq

section

variable (registry : PackageRegistry) (name : String) (r : VersionReq)

/-- The packages that there are under the name. -/
def available : List AvailablePackage := (registry.getVersions name).getD []

/-- The versions that a requirement deals with. -/
def concerned : List Version := r.version :: (available registry name).map (·.version)

/-- Pre-releases meet the requirement only at its own numbers, versions are ordered by precedence,
and the pick is a greatest version that meets the requirement. -/
structure FollowsSemver : Prop where
  prerelease : ∀ p ∈ available registry name, p.version.pre ≠ none → r.matches p.version = true →
    SameCore p.version r.version
  ordered : ∀ v ∈ concerned registry name r, ∀ w ∈ concerned registry name r,
    v.cmp w = v.precedence w
  greatest : ∀ q ∈ available registry name, r.matches q.version = true →
    ∃ p, registry.findBestMatch name r = some p ∧ p ∈ available registry name ∧
      r.matches p.version = true ∧ q.version.precedence p.version ≠ .gt

variable {registry name r}

/-- The pick is a greatest one in the order of the package manager. -/
theorem exists_findBestMatch {q : AvailablePackage} (hq : q ∈ available registry name)
    (hmatch : r.matches q.version = true) :
    ∃ p, registry.findBestMatch name r = some p ∧ p ∈ available registry name ∧
      r.matches p.version = true ∧ q.version.cmp p.version ≠ .gt := by
  rw [available, PackageRegistry.getVersions] at hq ⊢
  cases hl : registry.packages.lookup name with
  | none =>
    rw [hl] at hq
    cases hq
  | some versions =>
    rw [hl, Option.getD_some] at hq
    have hmem : q ∈ versions.filter fun p => r.matches p.version :=
      List.mem_filter.mpr ⟨hq, hmatch⟩
    obtain ⟨p, hp⟩ : ∃ p, PackageRegistry.maxByVersion
        (versions.filter fun p => r.matches p.version) = some p := by
      obtain ⟨a, l, hal⟩ := List.exists_cons_of_ne_nil (List.ne_nil_of_mem hmem)
      rw [hal]
      exact ⟨_, rfl⟩
    have hpmem := List.mem_filter.mp (PackageRegistry.maxByVersion_mem hp)
    refine ⟨p, ?_, hpmem.1, hpmem.2,
      Ordering.isLE_iff_ne_gt.mp (PackageRegistry.isLE_maxByVersion hp q hmem)⟩
    rw [PackageRegistry.findBestMatch, hl]
    exact hp

/-- **When requirements pick what they should.** Every pre-release with other numbers has to be out
of range, and the pre-releases of one version ordered as texts as they are as identifiers. -/
theorem semver_iff :
    FollowsSemver registry name r ↔
      (∀ p ∈ available registry name, p.version.pre ≠ none →
        SameCore p.version r.version ∨ r.OutOfRange p.version) ∧
      ∀ v ∈ concerned registry name r, ∀ w ∈ concerned registry name r, PreAgree v w := by
  constructor
  · rintro ⟨hpre, hordered, -⟩
    refine ⟨fun p hp hsome => ?_, fun v hv w hw =>
      (cmp_eq_precedence_iff v w).mp (hordered v hv w hw)⟩
    by_contra hcon
    obtain ⟨hcore, hrange⟩ := not_or.mp hcon
    exact hcore (hpre p hp hsome ((VersionReq.matches_iff hcore).mpr hrange))
  · rintro ⟨hpre, hagree⟩
    have hordered : ∀ v ∈ concerned registry name r, ∀ w ∈ concerned registry name r,
        v.cmp w = v.precedence w := fun v hv w hw =>
      (cmp_eq_precedence_iff v w).mpr (hagree v hv w hw)
    refine ⟨fun p hp hsome hmatch => ?_, hordered, fun q hq hmatch => ?_⟩
    · by_contra hcore
      exact (VersionReq.matches_iff hcore).mp hmatch ((hpre p hp hsome).resolve_left hcore)
    · obtain ⟨p, hbest, hp, hpmatch, hle⟩ := exists_findBestMatch hq hmatch
      have hconcerned : ∀ p ∈ available registry name, p.version ∈ concerned registry name r :=
        fun p hp => List.mem_cons_of_mem _ (List.mem_map_of_mem hp)
      refine ⟨p, hbest, hp, hpmatch, ?_⟩
      rwa [← hordered _ (hconcerned q hq) _ (hconcerned p hp)]

end

/-- Two pre-releases of version 2 are there. -/
def alphas : PackageRegistry :=
  (PackageRegistry.new.add ⟨"router", ⟨2, 0, 0, some "alpha.9"⟩, "registry", ∅, none⟩).add
    ⟨"router", ⟨2, 0, 0, some "alpha.10"⟩, "registry", ∅, none⟩

/-- The requirement `>=1.0.0` is met by both, and `alpha.9` counts as the greater one. -/
theorem alphas_counterexample :
    (alphas.findBestMatch "router" ⟨.greaterEq, ⟨1, 0, 0, none⟩⟩).map (·.version.toString) =
        some "2.0.0-alpha.9" ∧
      ¬ FollowsSemver alphas "router" ⟨.greaterEq, ⟨1, 0, 0, none⟩⟩ := by
  refine ⟨by decide +kernel, fun h => ?_⟩
  have hmem : (⟨"router", ⟨2, 0, 0, some "alpha.9"⟩, "registry", ∅, none⟩ : AvailablePackage) ∈
      available alphas "router" := List.mem_cons_self
  have hcore := h.prerelease _ hmem nofun (by decide +kernel)
  exact absurd hcore (by decide)

end Kryos.Package
