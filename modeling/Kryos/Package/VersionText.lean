import Mathlib
import Kryos.Lib.Decimal
import Kryos.Package.Semver

/-!
# Versions as text

What `Display` writes for a version, `FromStr` reads back: the numbers have no `-`, so the first `-`
is the one in front of the pre-release, whatever the pre-release is made of.

## Main results

* `Version.fromStr_toString` — the round trip
* `Version.toString_injective` — two versions with one text are equal
* `printing_survives` — the round trip of requirements and versions
-/

namespace Kryos.Package

/-! ## Splitting -/

variable {l : List Char}

theorem splitAt_cons (sep c : Char) (l : List Char) : Version.splitAt sep (c :: l) =
    if c = sep then [] :: Version.splitAt sep l
    else match Version.splitAt sep l with
      | [] => [[c]]
      | piece :: pieces => (c :: piece) :: pieces :=
  rfl

theorem splitAt_of_not_mem {sep : Char} (h : sep ∉ l) : Version.splitAt sep l = [l] := by
  induction l with
  | nil => rfl
  | cons c l ih =>
    obtain ⟨hc, hl⟩ := not_or.mp (mt List.mem_cons.mpr h)
    rw [splitAt_cons, if_neg (Ne.symm hc), ih hl]

theorem splitAt_append {sep : Char} (h : sep ∉ l) (rest : List Char) :
    Version.splitAt sep (l ++ sep :: rest) = l :: Version.splitAt sep rest := by
  induction l with
  | nil => rw [List.nil_append, splitAt_cons, if_pos rfl]
  | cons c l ih =>
    obtain ⟨hc, hl⟩ := not_or.mp (mt List.mem_cons.mpr h)
    rw [List.cons_append, splitAt_cons, if_neg (Ne.symm hc), ih hl]

theorem splitAt_ne_nil (sep : Char) (l : List Char) : Version.splitAt sep l ≠ [] := by
  cases l with
  | nil => exact List.cons_ne_nil [] []
  | cons c l =>
    rw [splitAt_cons]
    split
    · simp
    · split <;> simp

theorem splitAt_append_sep (sep : Char) (l rest : List Char) :
    Version.splitAt sep (l ++ sep :: rest) = Version.splitAt sep l ++ Version.splitAt sep rest := by
  induction l with
  | nil =>
    rw [List.nil_append, splitAt_cons, if_pos rfl]
    rfl
  | cons c l ih =>
    rw [List.cons_append, splitAt_cons, splitAt_cons, ih]
    by_cases hc : c = sep
    · rw [if_pos hc, if_pos hc, List.cons_append]
    · rw [if_neg hc, if_neg hc]
      cases hl : Version.splitAt sep l with
      | nil => exact absurd hl (splitAt_ne_nil sep l)
      | cons piece pieces => rfl

theorem sep_not_mem_of_mem_splitAt {sep : Char} {piece : List Char}
    (h : piece ∈ Version.splitAt sep l) : sep ∉ piece := by
  induction l generalizing piece with
  | nil =>
    rw [List.mem_singleton.mp h]
    exact List.not_mem_nil
  | cons c l ih =>
    rw [splitAt_cons] at h
    by_cases hc : c = sep
    · rw [if_pos hc] at h
      rcases List.mem_cons.mp h with rfl | h
      · exact List.not_mem_nil
      · exact ih h
    · rw [if_neg hc] at h
      cases hl : Version.splitAt sep l with
      | nil => exact absurd hl (splitAt_ne_nil sep l)
      | cons first pieces =>
        rw [hl] at h ih
        rcases List.mem_cons.mp h with rfl | h
        · have hfirst := ih List.mem_cons_self
          simp [hfirst, Ne.symm hc]
        · exact ih (List.mem_cons_of_mem first h)

namespace Version

/-- The versions there are: the numbers are `u64`, and a pre-release is not empty. -/
structure Valid (v : Version) : Prop where
  major : v.major < 2 ^ 64
  minor : v.minor < 2 ^ 64
  patch : v.patch < 2 ^ 64
  pre : v.pre ≠ some ""

/-! ## Numbers -/

theorem digitsToNat_eq (h : ∀ c ∈ l, c.isDigit = true) (n : ℕ) :
    digitsToNat l n = some (Nat.ofDigitChars 10 l n) := by
  induction l generalizing n with
  | nil => rw [digitsToNat, Nat.ofDigitChars_nil]
  | cons c l ih =>
    rw [digitsToNat, if_pos (h c List.mem_cons_self), Nat.ofDigitChars_cons,
      ih fun d hd => h d (List.mem_cons_of_mem c hd)]

theorem isDigit_of_mem_toDigits {n : ℕ} {c : Char} (hc : c ∈ Nat.toDigits 10 n) :
    c.isDigit = true :=
  Nat.isDigit_of_mem_toDigits (by decide) (by decide) hc

theorem not_mem_toDigits {n : ℕ} {c : Char} (hc : c.isDigit = false) : c ∉ Nat.toDigits 10 n :=
  fun h => absurd ((isDigit_of_mem_toDigits h).symm.trans hc) (by decide)

theorem parseU64_toDigits {n : ℕ} (hn : n < 2 ^ 64) : parseU64 (Nat.toDigits 10 n) = some n := by
  have hne : Nat.toDigits 10 n ≠ [] := Nat.toDigits_ne_nil
  have hplus : '+' ∉ Nat.toDigits 10 n := not_mem_toDigits rfl
  have hvalue := digitsToNat_eq (fun c hc => isDigit_of_mem_toDigits (n := n) hc) 0
  rw [Nat.ofDigitChars_ten_toDigits] at hvalue
  rw [parseU64, if_neg hne, hvalue, Option.filter_some, if_pos (by simpa using hn)]
  exact fun cs heq => hplus (heq ▸ List.mem_cons_self)

theorem readPart_toDigits (what : String) {n : ℕ} (hn : n < 2 ^ 64) :
    readPart what (Nat.toDigits 10 n) = .ok n := by
  rw [readPart, parseU64_toDigits hn]

/-! ## The text -/

/-- The text in front of the pre-release. -/
def core (v : Version) : List Char :=
  Nat.toDigits 10 v.major ++ '.' :: (Nat.toDigits 10 v.minor ++ '.' :: Nat.toDigits 10 v.patch)

theorem toList_toString (v : Version) :
    v.toString.toList = v.core ++ match v.pre with
      | none => []
      | some pre => '-' :: pre.toList := by
  have hcore : s!"{v.major}.{v.minor}.{v.patch}".toList = v.core := by
    simp [core, Nat.toList_repr, String.toList_append, ToString.toString]
  rw [toString]
  cases v.pre with
  | none => simpa using hcore
  | some pre =>
    show (s!"{v.major}.{v.minor}.{v.patch}" ++ "-" ++ pre).toList = _
    rw [String.toList_append, String.toList_append, hcore, List.append_assoc]
    rfl

theorem dash_not_mem_core (v : Version) : '-' ∉ v.core := by
  simp [core, not_mem_toDigits]

theorem splitAt_core (v : Version) : splitAt '.' v.core =
    [Nat.toDigits 10 v.major, Nat.toDigits 10 v.minor, Nat.toDigits 10 v.patch] := by
  have hdot : ∀ n, '.' ∉ Nat.toDigits 10 n := fun n => not_mem_toDigits rfl
  rw [core, splitAt_append (hdot _), splitAt_append (hdot _), splitAt_of_not_mem (hdot _)]

theorem takeWhile_toString (v : Version) :
    v.toString.toList.takeWhile (· ≠ '-') = v.core := by
  have hall : ∀ c ∈ v.core, decide (c ≠ '-') = true := fun c hc =>
    decide_eq_true fun h => dash_not_mem_core v (h ▸ hc)
  rw [toList_toString, List.takeWhile_append_of_pos hall]
  cases v.pre <;> simp

variable {v : Version}

/-- **Reading a version back.** -/
theorem fromStr_toString (h : v.Valid) : fromStr v.toString = .ok v := by
  have hpre : (if '-' ∈ v.toString.toList then some (v.toString.toList.drop (v.core.length + 1))
      else none) = v.pre.map String.toList := by
    rw [toList_toString]
    cases v.pre with
    | none => simp [dash_not_mem_core]
    | some pre => simp
  rw [fromStr]
  simp only [takeWhile_toString, hpre, splitAt_core, readPart_toDigits _ h.major,
    readPart_toDigits _ h.minor, readPart_toDigits _ h.patch]
  have hne : ¬ v.pre.map String.toList = some [] := by
    intro hp
    obtain ⟨pre, hpre, hnil⟩ := Option.map_eq_some_iff.mp hp
    exact h.pre (hpre.trans (congrArg some (String.toList_inj.mp hnil)))
  have hback : (v.pre.map String.toList).map String.ofList = v.pre := by
    cases v.pre <;> simp
  show (if v.pre.map String.toList = some [] then _ else _) = _
  rw [if_neg hne, hback]

theorem lt_of_readPart {what : String} {s : List Char} {n : ℕ} (h : readPart what s = .ok n) :
    n < 2 ^ 64 := by
  rw [readPart] at h
  split at h
  · rename_i m hm
    cases h
    obtain ⟨digits, hdigits⟩ : ∃ digits, parseU64 s = if digits = [] then none
        else (digitsToNat digits 0).filter (· < 2 ^ 64) := ⟨_, rfl⟩
    rw [hdigits] at hm
    by_cases hd : digits = []
    · rw [if_pos hd] at hm
      cases hm
    · rw [if_neg hd] at hm
      exact of_decide_eq_true (Option.filter_eq_some_iff.mp hm).2
  · cases h

/-- The three numbers and the pre-release of a version that is read. -/
theorem parts_of_fromStr {s : String} (h : fromStr s = .ok v) :
    ∃ a b c, readPart "major" a = .ok v.major ∧ readPart "minor" b = .ok v.minor ∧
      readPart "patch" c = .ok v.patch ∧
      ∃ pre : Option (List Char), v.pre = pre.map String.ofList ∧ pre ≠ some [] ∧
        ∀ chars, pre = some chars → chars <:+ s.toList := by
  simp only [fromStr] at h
  split at h
  · rename_i a b c _
    cases ha : readPart "major" a with
    | error e => rw [ha] at h; cases h
    | ok major =>
      cases hb : readPart "minor" b with
      | error e => rw [ha, hb] at h; cases h
      | ok minor =>
        cases hc : readPart "patch" c with
        | error e => rw [ha, hb, hc] at h; cases h
        | ok patch =>
          simp only [ha, hb, hc, bind, Except.bind] at h
          generalize hp : (if '-' ∈ s.toList then some _ else none) = pre at h
          by_cases hpre : pre = some []
          · rw [if_pos hpre] at h
            cases h
          · rw [if_neg hpre] at h
            cases h
            refine ⟨a, b, c, ha, hb, hc, pre, rfl, hpre, ?_⟩
            rintro chars rfl
            split_ifs at hp
            cases hp
            exact List.drop_suffix _ _
  · cases h

/-- What is read is a version. -/
theorem valid_of_fromStr {s : String} (h : fromStr s = .ok v) : v.Valid := by
  obtain ⟨a, b, c, ha, hb, hc, pre, hpre, hne, -⟩ := parts_of_fromStr h
  refine ⟨lt_of_readPart ha, lt_of_readPart hb, lt_of_readPart hc, ?_⟩
  rw [hpre]
  intro heq
  obtain ⟨chars, hsome, hnil⟩ := Option.map_eq_some_iff.mp heq
  exact hne (hsome.trans (congrArg some (by simpa using congrArg String.toList hnil)))

theorem toString_injective {w : Version} (hv : v.Valid) (hw : w.Valid) (h : v.toString = w.toString)
    : v = w := by
  have heq := (fromStr_toString hv).symm.trans (h ▸ fromStr_toString hw)
  exact Except.ok.inj heq

/-! ## The ends of the text -/

theorem isWhitespace_of_isDigit {c : Char} (h : c.isDigit = true) :
    Text.isWhitespace c = false := by
  obtain ⟨hlo, hhi⟩ := Decimal.toNat_of_isDigit h
  rw [Text.isWhitespace]
  refine Bool.eq_false_iff.mpr fun hwhite => ?_
  simp only [List.mem_cons, List.not_mem_nil, or_false, Bool.or_eq_true, Bool.and_eq_true,
    decide_eq_true_eq] at hwhite
  omega

/-- The text of a version begins with a digit. -/
theorem toString_eq_cons (v : Version) :
    ∃ c l, c.isDigit = true ∧ v.toString.toList = c :: l := by
  obtain ⟨c, l, hcons⟩ := List.exists_cons_of_ne_nil (Nat.toDigits_ne_nil (n := v.major) (b := 10))
  have hdigit : c.isDigit = true := by
    refine isDigit_of_mem_toDigits (n := v.major) ?_
    rw [hcons]
    exact List.mem_cons_self
  have htext := toList_toString v
  rw [core, hcons, List.cons_append, List.cons_append] at htext
  exact ⟨c, _, hdigit, htext⟩

/-- The text of a version that was read from a bare text is bare. -/
theorem bare_toString {s : String} (hs : Text.Bare s.toList) (h : fromStr s = .ok v) :
    Text.Bare v.toString.toList := by
  obtain ⟨c, l, hc, hl⟩ := toString_eq_cons v
  have hne : v.toString.toList ≠ [] := by rw [hl]; exact List.cons_ne_nil _ _
  refine ⟨hne, by simpa [hl] using isWhitespace_of_isDigit hc, ?_⟩
  obtain ⟨-, -, -, -, -, -, pre, hpre, hnil, hsuffix⟩ := parts_of_fromStr h
  cases pre with
  | none =>
    have hpatch : Nat.toDigits 10 v.patch ≠ [] := Nat.toDigits_ne_nil
    have hlast : v.toString.toList.getLast hne = (Nat.toDigits 10 v.patch).getLast hpatch := by
      simp [toList_toString, hpre, core, List.getLast_append_of_ne_nil, List.getLast_cons, hpatch]
    rw [hlast]
    exact isWhitespace_of_isDigit (isDigit_of_mem_toDigits (List.getLast_mem hpatch))
  | some chars =>
    have hchars : chars ≠ [] := fun e => hnil (congrArg some e)
    have hlast : v.toString.toList.getLast hne = chars.getLast hchars := by
      simp [toList_toString, hpre, List.getLast_append_of_ne_nil, List.getLast_cons, hchars]
    rw [hlast, (hsuffix chars rfl).getLast hchars]
    exact hs.last

end Version

/-! ## Requirements -/

namespace VersionReq

open Version

/-- An operator in front of a digit is told from the others. -/
theorem stripOp_opStr {op : Op} (hop : op ≠ .wildcard) {c : Char} (hc : c.isDigit = true)
    (l : List Char) : stripOp ((opStr op).toList ++ c :: l) = (op, c :: l) := by
  have hne : c ≠ '=' := by rintro rfl; exact absurd hc (by decide)
  cases op with
  | wildcard => exact absurd rfl hop
  | greater =>
    show stripOp ('>' :: c :: l) = _
    simp [stripOp, hne]
  | less =>
    show stripOp ('<' :: c :: l) = _
    simp [stripOp, hne]
  | caret | tilde | exact | greaterEq | lessEq => rfl

theorem stripOp_ne_wildcard (l : List Char) : (stripOp l).1 ≠ .wildcard := by
  rw [stripOp.eq_def]
  split <;> nofun

theorem opStr_eq_cons {op : Op} (hop : op ≠ .wildcard) :
    ∃ c l, (opStr op).toList = c :: l ∧ Text.isWhitespace c = false ∧ c ≠ '*' := by
  cases op with
  | wildcard => exact absurd rfl hop
  | caret | tilde | exact | greaterEq | greater | lessEq | less =>
    exact ⟨_, _, rfl, by decide, by decide⟩

/-- A requirement on a version with a bare text is read back from its own text. -/
theorem fromStr_toString {r : VersionReq} (hop : r.op ≠ .wildcard)
    (hv : Text.Bare r.version.toString.toList) (hvalid : r.version.Valid) :
    fromStr r.toString = .ok r := by
  have htext : r.toString.toList = (opStr r.op).toList ++ r.version.toString.toList := by
    rw [toString, if_neg hop, String.toList_append]
  obtain ⟨o, os, hos, hwhite, hstar⟩ := opStr_eq_cons hop
  have hcons : r.toString.toList = o :: (os ++ r.version.toString.toList) := by
    rw [htext, hos, List.cons_append]
  have hbare : Text.Bare r.toString.toList := by
    refine ⟨by rw [hcons]; exact List.cons_ne_nil _ _, by simpa [hcons] using hwhite, ?_⟩
    simp only [htext, List.getLast_append_of_ne_nil _ hv.ne_nil]
    exact hv.last
  have hne : r.toString.toList ≠ ['*'] := by
    rw [hcons]
    exact fun e => hstar (List.cons.inj e).1
  obtain ⟨c, l, hc, hl⟩ := toString_eq_cons r.version
  have hstrip : stripOp r.toString.toList = (r.op, r.version.toString.toList) := by
    rw [htext, hl, stripOp_opStr hop hc]
  simp only [fromStr, Text.trim_of_bare hbare]
  rw [if_neg hbare.ne_nil, if_neg hne, hstrip]
  simp only [Text.trim_of_bare hv, String.ofList_toList, Version.fromStr_toString hvalid]
  rfl

end VersionReq

/-- **Requirements and versions survive printing.** What is printed of a requirement or of a version
that was read reads as the same again, and so does every version that there is. -/
theorem printing_survives :
    (∀ s r, VersionReq.fromStr s = .ok r → VersionReq.fromStr r.toString = .ok r) ∧
    (∀ s v, Version.fromStr s = .ok v → Version.fromStr v.toString = .ok v) ∧
    ∀ v : Version, v.Valid → Version.fromStr v.toString = .ok v := by
  refine ⟨fun s r h => ?_, fun s v h => Version.fromStr_toString (Version.valid_of_fromStr h),
    fun v => Version.fromStr_toString⟩
  simp only [VersionReq.fromStr] at h
  split_ifs at h with hnil hstar
  · cases h
    rfl
  · have hop := VersionReq.stripOp_ne_wildcard (Text.trim s.toList)
    generalize VersionReq.stripOp (Text.trim s.toList) = stripped at h hop
    obtain ⟨op, rest⟩ := stripped
    cases hv : Version.fromStr (String.ofList (Text.trim rest)) with
    | error e => rw [hv] at h; cases h
    | ok v =>
      rw [hv] at h
      cases h
      -- The empty text is not a version, so the trimmed one begins and ends in no whitespace.
      have hbare : Text.Bare (String.ofList (Text.trim rest)).toList := by
        rw [String.toList_ofList]
        refine (Text.trim_cases rest).resolve_left fun hempty => ?_
        have herror : (Version.fromStr (String.ofList [])).toOption = none := by decide +kernel
        rw [hempty] at hv
        rw [hv] at herror
        cases herror
      exact VersionReq.fromStr_toString hop (Version.bare_toString hbare hv)
        (Version.valid_of_fromStr hv)

/-- A bare version is read as caret, and its pre-release may have dashes and dots. -/
theorem printing_survives_bare :
    VersionReq.fromStr (VersionReq.toString ⟨.caret, ⟨1, 2, 3, some "rc-1.x"⟩⟩) =
      .ok ⟨.caret, ⟨1, 2, 3, some "rc-1.x"⟩⟩ :=
  printing_survives.1 " +1.02.3-rc-1.x " ⟨.caret, ⟨1, 2, 3, some "rc-1.x"⟩⟩ (by decide +kernel)

end Kryos.Package
