import Mathlib
import Kryos.Lib.Brackets
import Kryos.Lib.Text

/-!
# Predicates of conditional compilation

The arguments of a `cfg` annotation are texts. A combinator is recognised by stripping its name and
one group of parentheses, and its arguments are the parts between the commas outside inner groups.

The depth counters are `i32` in the source and integers here: they differ only on texts with more
than two thousand million open parentheses, which is more than the offsets of a source file count.

## Main definitions

* `CfgStrip.Pred` — predicates as trees, and `CfgStrip.Pred.eval`, their truth value
* `CfgStrip.Spells` — the texts of a predicate

## Main results

* `CfgStrip.matchPredicate_eq_eval` — every text of a predicate is given its truth value
-/

namespace Kryos.CfgStrip

open Text Brackets

structure CfgContext where
  targetOs : String
  release : Bool
  deriving DecidableEq, Repr

/-! ## Evaluation on texts -/

/-- `to_ascii_lowercase` -/
def lower (s : List Char) : List Char := s.map Char.toLower

/-- The inside of the parentheses when the text is `name(...)`. -/
def stripCall (s : List Char) (name : List Char) : Option (List Char) :=
  let s := trim s
  if !name.isPrefixOf (lower s) then none
  else
    let rest := trimStart (s.drop name.length)
    if rest.head? ≠ some '(' ∨ rest.getLast? ≠ some ')' then none
    else
      match closeIndex '(' ')' 0 0 rest with
      | none => none
      | some i => if i + 1 ≠ rest.length then none else some ((rest.drop 1).take (i - 1))

/-- The current part is kept when it is not blank. -/
def pushTrimmed (out : List (List Char)) (cur : List Char) : List (List Char) :=
  if trim cur = [] then out else out ++ [trim cur]

def splitLoop (depth : ℤ) (out : List (List Char)) (cur : List Char) :
    List Char → List (List Char)
  | [] => pushTrimmed out cur
  | ch :: chars =>
    if ch = '(' then splitLoop (depth + 1) out (cur ++ [ch]) chars
    else if ch = ')' then splitLoop (depth - 1) out (cur ++ [ch]) chars
    else if ch = ',' ∧ depth = 0 then splitLoop depth (pushTrimmed out cur) [] chars
    else splitLoop depth out (cur ++ [ch]) chars

def splitTopLevel (s : List Char) : List (List Char) := splitLoop 0 [] [] s

theorem splitLoop_eq (depth : ℤ) (out : List (List Char)) (cur s : List Char) :
    splitLoop depth out cur s =
      out ++ ((splitTop '(' ')' ',' depth cur s).map trim).filter (· ≠ []) := by
  induction s generalizing depth out cur with
  | nil =>
    simp only [splitLoop, pushTrimmed, splitTop, List.map_cons, List.map_nil]
    by_cases h : trim cur = [] <;> simp [h]
  | cons ch s ih =>
    rw [splitLoop, splitTop]
    split_ifs with hop hcl hsep
    · exact ih _ _ _
    · exact ih _ _ _
    · rw [ih, pushTrimmed]
      by_cases h : trim cur = [] <;> simp [h]
    · exact ih _ _ _

theorem splitTopLevel_eq (s : List Char) :
    splitTopLevel s = ((splitTop '(' ')' ',' 0 [] s).map trim).filter (· ≠ []) := by
  rw [splitTopLevel, splitLoop_eq, List.nil_append]

theorem length_le_of_mem_splitTopLevel {s part : List Char} (h : part ∈ splitTopLevel s) :
    part.length ≤ s.length := by
  rw [splitTopLevel_eq] at h
  obtain ⟨piece, hpiece, rfl⟩ := List.mem_map.mp (List.mem_of_mem_filter h)
  have hlen := length_le_of_mem_splitTop hpiece
  rw [List.length_nil, Nat.zero_add] at hlen
  exact (length_trim_le piece).trans hlen

variable {name inner : List Char}

theorem length_lt_of_stripCall {s : List Char} (h : stripCall s name = some inner) :
    inner.length < s.length := by
  simp only [stripCall] at h
  split at h
  case isTrue => exact absurd h (by simp)
  case isFalse =>
    split at h
    case isTrue => exact absurd h (by simp)
    case isFalse hends =>
      split at h
      case h_1 => exact absurd h (by simp)
      case h_2 i hclose =>
        split at h
        case isTrue => exact absurd h (by simp)
        case isFalse hlast =>
          have hrest : (trimStart ((trim s).drop name.length)).length ≤ s.length :=
            (List.dropWhile_suffix _).length_le.trans
              ((List.drop_sublist _ _).length_le.trans (length_trim_le s))
          obtain rfl := Option.some.inj h
          rw [List.length_take, List.length_drop]
          omega

/-- A predicate that is no combinator; unknown ones do not hold. -/
def holds (ctx : CfgContext) (key : List Char) : Bool :=
  if key = "linux".toList then ctx.targetOs = "linux"
  else if key = "windows".toList then ctx.targetOs = "windows"
  else if key = "macos".toList then ctx.targetOs = "macos"
  else if key = "unix".toList then ctx.targetOs = "linux" ∨ ctx.targetOs = "macos"
  else if key = "debug".toList then !ctx.release
  else if key = "release".toList then ctx.release
  else false

def matchPredicate (ctx : CfgContext) (arg : List Char) : Bool :=
  let trimmed := trim arg
  match hcall : stripCall trimmed ['n', 'o', 't'] with
  | some inner =>
    match hparts : splitTopLevel inner with
    | [part] =>
      have : part.length < arg.length :=
        ((length_le_of_mem_splitTopLevel (hparts ▸ List.mem_singleton_self part)).trans_lt
          (length_lt_of_stripCall hcall)).trans_le (length_trim_le arg)
      !matchPredicate ctx part
    | _ => false
  | none =>
    match hcall : stripCall trimmed ['a', 'l', 'l'] with
    | some inner => (splitTopLevel inner).attach.all fun part =>
      have : part.1.length < arg.length :=
        ((length_le_of_mem_splitTopLevel part.2).trans_lt
          (length_lt_of_stripCall hcall)).trans_le (length_trim_le arg)
      matchPredicate ctx part.1
    | none =>
      match hcall : stripCall trimmed ['a', 'n', 'y'] with
      | some inner => (splitTopLevel inner).attach.any fun part =>
        have : part.1.length < arg.length :=
          ((length_le_of_mem_splitTopLevel part.2).trans_lt
            (length_lt_of_stripCall hcall)).trans_le (length_trim_le arg)
        matchPredicate ctx part.1
      | none => holds ctx (lower trimmed)
termination_by arg.length

/-- The names of the combinators. -/
def combinators : List (List Char) := [['n', 'o', 't'], ['a', 'l', 'l'], ['a', 'n', 'y']]

section Equations

variable {ctx : CfgContext} {arg inner part : List Char}

theorem matchPredicate_not (hcall : stripCall (trim arg) ['n', 'o', 't'] = some inner)
    (hparts : splitTopLevel inner = [part]) :
    matchPredicate ctx arg = !matchPredicate ctx part := by
  rw [matchPredicate]
  split
  case h_1 inner' hcall' =>
    obtain rfl := Option.some.inj (hcall.symm.trans hcall')
    split
    case h_1 part' hparts' =>
      obtain rfl := List.singleton_inj.mp (hparts.symm.trans hparts')
      rfl
    case h_2 hno => exact absurd hparts (hno part)
  case h_2 hcall' => exact absurd (hcall.symm.trans hcall') (by simp)

theorem matchPredicate_all (hnot : stripCall (trim arg) ['n', 'o', 't'] = none)
    (hcall : stripCall (trim arg) ['a', 'l', 'l'] = some inner) :
    matchPredicate ctx arg = (splitTopLevel inner).all (matchPredicate ctx) := by
  rw [matchPredicate]
  split
  case h_1 hnot' => exact absurd (hnot.symm.trans hnot') (by simp)
  case h_2 =>
    split
    case h_1 inner' hcall' =>
      obtain rfl := Option.some.inj (hcall.symm.trans hcall')
      simp
    case h_2 hcall' => exact absurd (hcall.symm.trans hcall') (by simp)

theorem matchPredicate_any (hnot : stripCall (trim arg) ['n', 'o', 't'] = none)
    (hall : stripCall (trim arg) ['a', 'l', 'l'] = none)
    (hcall : stripCall (trim arg) ['a', 'n', 'y'] = some inner) :
    matchPredicate ctx arg = (splitTopLevel inner).any (matchPredicate ctx) := by
  rw [matchPredicate]
  split
  case h_1 hnot' => exact absurd (hnot.symm.trans hnot') (by simp)
  case h_2 =>
    split
    case h_1 hall' => exact absurd (hall.symm.trans hall') (by simp)
    case h_2 =>
      split
      case h_1 inner' hcall' =>
        obtain rfl := Option.some.inj (hcall.symm.trans hcall')
        simp
      case h_2 hcall' => exact absurd (hcall.symm.trans hcall') (by simp)

theorem matchPredicate_holds (h : ∀ name ∈ combinators,
    stripCall (trim arg) name = none) :
    matchPredicate ctx arg = holds ctx (lower (trim arg)) := by
  have hnot := h ['n', 'o', 't'] (by simp [combinators])
  have hall := h ['a', 'l', 'l'] (by simp [combinators])
  have hany := h ['a', 'n', 'y'] (by simp [combinators])
  rw [matchPredicate]
  split
  case h_1 hnot' => exact absurd (hnot.symm.trans hnot') (by simp)
  case h_2 =>
    split
    case h_1 hall' => exact absurd (hall.symm.trans hall') (by simp)
    case h_2 =>
      split
      case h_1 hany' => exact absurd (hany.symm.trans hany') (by simp)
      case h_2 => rfl

end Equations

/-! ## Predicates and their texts -/

/-- A character of a name. -/
def isNameChar (c : Char) : Bool := !isWhitespace c && c != '(' && c != ')' && c != ','

structure Name where
  chars : List Char
  ne_nil : chars ≠ []
  isName : ∀ c ∈ chars, isNameChar c = true

inductive Pred where
  | atom (name : Name)
  | not (p : Pred)
  | all (ps : List Pred)
  | any (ps : List Pred)

mutual

def Pred.eval (ctx : CfgContext) : Pred → Bool
  | .atom name => holds ctx (lower name.chars)
  | .not p => !p.eval ctx
  | .all ps => Pred.evalAll ctx ps
  | .any ps => Pred.evalAny ctx ps

def Pred.evalAll (ctx : CfgContext) : List Pred → Bool
  | [] => true
  | p :: ps => p.eval ctx && Pred.evalAll ctx ps

def Pred.evalAny (ctx : CfgContext) : List Pred → Bool
  | [] => false
  | p :: ps => p.eval ctx || Pred.evalAny ctx ps

end

/-- The text of a combinator without the blanks around it. -/
def callText (word b inner : List Char) : List Char := word ++ (b ++ ('(' :: (inner ++ [')'])))

/-- A combinator applied to `inner`, in any case and with any blanks. -/
def SpellsCall (name : List Char) (inner text : List Char) : Prop :=
  ∃ a word b c, Blank a ∧ Blank b ∧ Blank c ∧ lower word = name ∧
    text = a ++ (callText word b inner ++ c)

mutual

def Spells : Pred → List Char → Prop
  | .atom name, text => ∃ a word b, Blank a ∧ Blank b ∧ lower word = lower name.chars ∧
      text = a ++ (word ++ b)
  | .not p, text => ∃ inner, SpellsCall ['n', 'o', 't'] inner text ∧ Spells p inner
  | .all ps, text => ∃ inner, SpellsCall ['a', 'l', 'l'] inner text ∧ SpellsArgs ps inner
  | .any ps, text => ∃ inner, SpellsCall ['a', 'n', 'y'] inner text ∧ SpellsArgs ps inner

/-- The arguments of a combinator, separated by commas. -/
def SpellsArgs : List Pred → List Char → Prop
  | [], text => Blank text
  | [p], text => Spells p text
  | p :: q :: ps, text => ∃ first rest, Spells p first ∧ SpellsArgs (q :: ps) rest ∧
      text = first ++ ',' :: rest

end

/-! ## The shape of the texts -/

theorem isNameChar_toLower (c : Char) : isNameChar c.toLower = isNameChar c := by
  have hall : ∀ n < 91, 65 ≤ n →
      isNameChar (Char.ofNat n).toLower = isNameChar (Char.ofNat n) := by
    decide
  by_cases h : c.val ≥ 'A'.val ∧ c.val ≤ 'Z'.val
  · have hupper := hall c.toNat (Nat.lt_succ_of_le h.2) h.1
    rwa [Char.ofNat_toNat] at hupper
  · rw [Char.toLower, dif_neg h]

theorem isNameChar_of_lower_eq {u v : List Char} (h : lower u = lower v)
    (hv : ∀ c ∈ v, isNameChar c = true) : ∀ c ∈ u, isNameChar c = true := by
  intro c hc
  have hmem : c.toLower ∈ lower v := h ▸ List.mem_map_of_mem hc
  obtain ⟨d, hd, heq⟩ := List.mem_map.mp hmem
  rw [← isNameChar_toLower, ← heq, isNameChar_toLower]
  exact hv d hd

theorem bare_of_isNameChar {l : List Char} (hne : l ≠ []) (h : ∀ c ∈ l, isNameChar c = true) :
    Bare l := by
  have hbare : ∀ c ∈ l, isWhitespace c = false := fun c hc => by
    have hname := h c hc
    simp only [isNameChar, Bool.and_eq_true, Bool.not_eq_true'] at hname
    exact hname.1.1.1
  exact ⟨hne, hbare _ (List.head_mem hne), hbare _ (List.getLast_mem hne)⟩

theorem flat_of_isNameChar {l : List Char} (h : ∀ c ∈ l, isNameChar c = true) :
    Flat '(' ')' ',' l := by
  refine Flat.of_forall fun c hc => ?_
  have hname := h c hc
  simp only [isNameChar, Bool.and_eq_true, bne_iff_ne] at hname
  exact ⟨hname.1.1.2, hname.1.2, hname.2⟩

theorem flat_of_blank {l : List Char} (h : Blank l) : Flat '(' ')' ',' l := by
  have hbracket : ∀ c : Char, isWhitespace c = true → c ≠ '(' ∧ c ≠ ')' ∧ c ≠ ',' := by
    rintro c hc
    refine ⟨?_, ?_, ?_⟩ <;> rintro rfl <;> exact absurd hc (by decide)
  exact Flat.of_forall fun c hc => hbracket c (h c hc)

theorem bare_callText {word : List Char} (hne : word ≠ []) (h : ∀ c ∈ word, isNameChar c = true)
    (b inner : List Char) : Bare (callText word b inner) := by
  have hword := bare_of_isNameChar hne h
  have hne' : callText word b inner ≠ [] := by simp [callText]
  refine ⟨hne', ?_, ?_⟩
  · have hhead := hword.head
    simp only [callText, List.head_append_of_ne_nil hne]
    exact hhead
  · simp only [callText, ← List.append_assoc, ← List.cons_append, List.getLast_append_singleton]
    decide

theorem lower_append (u v : List Char) : lower (u ++ v) = lower u ++ lower v := List.map_append

theorem stripCall_callText {word b : List Char} (hname : name ≠ [])
    (hchars : ∀ c ∈ name, isNameChar c = true) (hword : lower word = lower name)
    (hlower : lower name = name) (hb : Blank b) (hinner : Balanced '(' ')' inner) :
    stripCall (callText word b inner) name = some inner := by
  have hlen : word.length = name.length := by
    have hlen := congrArg List.length hword
    rwa [lower, lower, List.length_map, List.length_map] at hlen
  have hne : word ≠ [] := by
    rw [← List.length_pos_iff, hlen]
    exact List.length_pos_iff.mpr hname
  have hbare := bare_callText hne (isNameChar_of_lower_eq hword hchars) b inner
  have hprefix : name.isPrefixOf (lower (callText word b inner)) = true := by
    rw [List.isPrefixOf_iff_prefix, callText, lower_append, hword, hlower]
    exact List.prefix_append _ _
  have hrest : trimStart ((callText word b inner).drop name.length) = '(' :: (inner ++ [')']) := by
    rw [callText, List.drop_left' hlen, trimStart_append hb, trimStart_cons (by decide)]
  have hlast : ('(' :: (inner ++ [')'])).getLast? = some ')' := by
    rw [← List.cons_append, List.getLast?_concat]
  have hclose := closeIndex_group (by decide : '(' ≠ ')') hinner []
  simp only [stripCall, trim_of_bare hbare, hprefix, hrest, hlast, hclose]
  simp

/-- A text that does not begin with the name is no call of it. -/
theorem stripCall_of_not_prefix {s : List Char} (hs : Bare s) (h : ¬ name <+: lower s) :
    stripCall s name = none := by
  have hprefix : name.isPrefixOf (lower s) = false := by
    rwa [← Bool.not_eq_true, List.isPrefixOf_iff_prefix]
  simp only [stripCall, trim_of_bare hs, hprefix, Bool.not_false, if_true]

/-- A name alone is no call. -/
theorem stripCall_of_isNameChar {s : List Char} (hne : s ≠ []) (h : ∀ c ∈ s, isNameChar c = true)
    (name : List Char) : stripCall s name = none := by
  have hhead : (trimStart (s.drop name.length)).head? ≠ some '(' := by
    intro heq
    have hmem := List.mem_of_mem_drop ((List.dropWhile_suffix _).subset (List.mem_of_mem_head? heq))
    exact absurd (h '(' hmem) (by decide)
  simp only [stripCall, trim_of_bare (bare_of_isNameChar hne h), if_pos (Or.inl hhead), ite_self]

theorem combinator_name (h : name ∈ combinators) :
    name ≠ [] ∧ (∀ c ∈ name, isNameChar c = true) ∧ lower name = name ∧ name.length = 3 := by
  have hall : ∀ name ∈ combinators, name ≠ [] ∧ name.all isNameChar = true ∧ lower name = name ∧
      name.length = 3 := by
    decide
  obtain ⟨hne, hchars, hlower, hlen⟩ := hall name h
  exact ⟨hne, List.all_eq_true.mp hchars, hlower, hlen⟩

variable {text : List Char}

/-- The call of a combinator is a bare text between blanks. -/
theorem SpellsCall.core (hname : name ∈ combinators) (h : SpellsCall name inner text) :
    ∃ word b, Blank b ∧ lower word = name ∧ Bare (callText word b inner) ∧
      trim text = callText word b inner := by
  obtain ⟨a, word, b, c, ha, hb, hc, hword, rfl⟩ := h
  obtain ⟨hne, hchars, hlower, -⟩ := combinator_name hname
  have hwordNe : word ≠ [] := by
    rintro rfl
    exact hne hword.symm
  have hbare := bare_callText hwordNe
    (isNameChar_of_lower_eq (hword.trans hlower.symm) hchars) b inner
  refine ⟨word, b, hb, hword, hbare, ?_⟩
  exact trim_pad ha hbare hc

/-- Stripping the name of a combinator from its call. -/
theorem stripCall_call (hname : name ∈ combinators) (h : SpellsCall name inner text)
    (hinner : Balanced '(' ')' inner) : stripCall (trim text) name = some inner := by
  obtain ⟨word, b, hb, hword, -, htrim⟩ := h.core hname
  obtain ⟨hne, hchars, hlower, -⟩ := combinator_name hname
  rw [htrim]
  exact stripCall_callText hne hchars (hword.trans hlower.symm) hlower hb hinner

/-- Stripping the name of another combinator. -/
theorem stripCall_other {other : List Char} (hname : name ∈ combinators)
    (hother : other ∈ combinators) (hne : other ≠ name) (h : SpellsCall name inner text) :
    stripCall (trim text) other = none := by
  obtain ⟨word, b, hb, hword, hbare, htrim⟩ := h.core hname
  rw [htrim]
  refine stripCall_of_not_prefix hbare fun hprefix => hne ?_
  obtain ⟨rest, hrest⟩ := hprefix
  rw [callText, lower_append, hword] at hrest
  have hlen : other.length = name.length :=
    (combinator_name hother).2.2.2.trans (combinator_name hname).2.2.2.symm
  exact List.append_inj_left hrest hlen

theorem flat_call (hname : name ∈ combinators) (h : SpellsCall name inner text)
    (hinner : Balanced '(' ')' inner) : Flat '(' ')' ',' text := by
  obtain ⟨a, word, b, c, ha, hb, hc, hword, rfl⟩ := h
  obtain ⟨-, hchars, hlower, -⟩ := combinator_name hname
  have hflat := flat_of_isNameChar (isNameChar_of_lower_eq (hword.trans hlower.symm) hchars)
  have hcall : Flat '(' ')' ',' (callText word b inner) :=
    hflat.append ((flat_of_blank hb).append (Flat.group hinner Flat.nil))
  exact (flat_of_blank ha).append (hcall.append (flat_of_blank hc))

mutual

theorem flat_of_spells : ∀ (p : Pred) (text : List Char), Spells p text → Flat '(' ')' ',' text
  | .atom name, text, ⟨a, word, b, ha, hb, hword, htext⟩ => by
    have hflat := flat_of_isNameChar (isNameChar_of_lower_eq hword name.isName)
    rw [htext]
    exact (flat_of_blank ha).append (hflat.append (flat_of_blank hb))
  | .not p, text, ⟨inner, hcall, hinner⟩ =>
    flat_call (by decide) hcall (flat_of_spells p inner hinner).balanced
  | .all ps, text, ⟨inner, hcall, hinner⟩ | .any ps, text, ⟨inner, hcall, hinner⟩ =>
    flat_call (by decide) hcall (balanced_of_spellsArgs ps inner hinner)

theorem balanced_of_spellsArgs : ∀ (ps : List Pred) (text : List Char), SpellsArgs ps text →
    Balanced '(' ')' text
  | [], _, h => (flat_of_blank h).balanced
  | [p], text, h => (flat_of_spells p text h).balanced
  | p :: q :: ps, text, ⟨first, rest, hfirst, hrest, htext⟩ => by
    rw [htext]
    exact (flat_of_spells p first hfirst).balanced.append
      (Balanced.plain (by decide) (by decide) (balanced_of_spellsArgs (q :: ps) rest hrest))

end

/-! ## Texts are given the value of the predicate -/

/-- A predicate is a bare text between blanks. -/
theorem spells_trim {p : Pred} (h : Spells p text) : Bare (trim text) ∧ Spells p (trim text) := by
  have hcall {name : List Char} {inner : List Char} (hname : name ∈ combinators)
      (h : SpellsCall name inner text) : Bare (trim text) ∧ SpellsCall name inner (trim text) := by
    obtain ⟨word, b, hb, hword, hbare, htrim⟩ := h.core hname
    rw [htrim]
    exact ⟨hbare, [], word, b, [], by simp [Blank], hb, by simp [Blank], hword, by simp⟩
  match p, h with
  | .atom name, ⟨a, word, b, ha, hb, hword, htext⟩ =>
    have hne : word ≠ [] := by
      rintro rfl
      exact name.ne_nil (List.map_eq_nil_iff.mp hword.symm)
    have hbare := bare_of_isNameChar hne (isNameChar_of_lower_eq hword name.isName)
    rw [htext, trim_pad ha hbare hb]
    exact ⟨hbare, [], word, [], by simp [Blank], by simp [Blank], hword, by simp⟩
  | .not p, ⟨inner, h, hinner⟩ | .all ps, ⟨inner, h, hinner⟩ | .any ps, ⟨inner, h, hinner⟩ =>
    exact ⟨(hcall (by decide) h).1, inner, (hcall (by decide) h).2, hinner⟩

theorem splitTopLevel_flat (h : Flat '(' ')' ',' text) :
    splitTopLevel text = if trim text = [] then [] else [trim text] := by
  have hsplit := splitTop_flat (by decide) h [] []
  rw [List.append_nil, List.nil_append] at hsplit
  rw [splitTopLevel_eq, hsplit]
  by_cases ht : trim text = [] <;> simp [splitTop, ht]

theorem splitTopLevel_cons {first rest : List Char} (h : Flat '(' ')' ',' first)
    (hne : trim first ≠ []) :
    splitTopLevel (first ++ ',' :: rest) = trim first :: splitTopLevel rest := by
  rw [splitTopLevel_eq, splitTop_flat (by decide) h, List.nil_append,
    splitTop_sep (by decide) (by decide), splitTopLevel_eq]
  simp [hne]

theorem evalAll_eq (ctx : CfgContext) (ps : List Pred) :
    Pred.evalAll ctx ps = ps.all (Pred.eval ctx) := by
  induction ps with
  | nil => rfl
  | cons p ps ih => rw [Pred.evalAll, ih, List.all_cons]

theorem evalAny_eq (ctx : CfgContext) (ps : List Pred) :
    Pred.evalAny ctx ps = ps.any (Pred.eval ctx) := by
  induction ps with
  | nil => rfl
  | cons p ps ih => rw [Pred.evalAny, ih, List.any_cons]

mutual

theorem matchPredicate_spells (ctx : CfgContext) : ∀ (p : Pred) (text : List Char),
    Spells p text → matchPredicate ctx text = p.eval ctx
  | .atom name, text, ⟨a, word, b, ha, hb, hword, htext⟩ => by
    have hne : word ≠ [] := by
      rintro rfl
      exact name.ne_nil (List.map_eq_nil_iff.mp hword.symm)
    have hchars := isNameChar_of_lower_eq hword name.isName
    have htrim : trim text = word := by rw [htext, trim_pad ha (bare_of_isNameChar hne hchars) hb]
    rw [matchPredicate_holds fun _ _ => by rw [htrim, stripCall_of_isNameChar hne hchars], htrim,
      hword, Pred.eval]
  | .not p, text, ⟨inner, hcall, hinner⟩ => by
    have hflat := flat_of_spells p inner hinner
    obtain ⟨hbare, hspells⟩ := spells_trim hinner
    have hparts := splitTopLevel_flat hflat
    rw [if_neg hbare.ne_nil] at hparts
    rw [matchPredicate_not (stripCall_call (by decide) hcall hflat.balanced) hparts,
      matchPredicate_spells ctx p (trim inner) hspells, Pred.eval]
  | .all ps, text, ⟨inner, hcall, hinner⟩ => by
    have hbalanced := balanced_of_spellsArgs ps inner hinner
    have hparts := map_matchPredicate ctx ps inner hinner
    rw [matchPredicate_all (stripCall_other (by decide) (by decide) (by decide) hcall)
      (stripCall_call (by decide) hcall hbalanced), Pred.eval, evalAll_eq]
    simpa only [List.all_map, Function.id_comp] using congrArg (List.all · id) hparts
  | .any ps, text, ⟨inner, hcall, hinner⟩ => by
    have hbalanced := balanced_of_spellsArgs ps inner hinner
    have hparts := map_matchPredicate ctx ps inner hinner
    rw [matchPredicate_any (stripCall_other (by decide) (by decide) (by decide) hcall)
      (stripCall_other (by decide) (by decide) (by decide) hcall)
      (stripCall_call (by decide) hcall hbalanced), Pred.eval, evalAny_eq]
    simpa only [List.any_map, Function.id_comp] using congrArg (List.any · id) hparts

theorem map_matchPredicate (ctx : CfgContext) : ∀ (ps : List Pred) (text : List Char),
    SpellsArgs ps text → (splitTopLevel text).map (matchPredicate ctx) = ps.map (Pred.eval ctx)
  | [], text, h => by
    rw [splitTopLevel_flat (flat_of_blank h), if_pos (trim_of_blank h)]
    rfl
  | [p], text, h => by
    obtain ⟨hbare, hspells⟩ := spells_trim h
    rw [splitTopLevel_flat (flat_of_spells p text h), if_neg hbare.ne_nil, List.map_singleton,
      matchPredicate_spells ctx p (trim text) hspells, List.map_singleton]
  | p :: q :: ps, text, ⟨first, rest, hfirst, hrest, htext⟩ => by
    obtain ⟨hbare, hspells⟩ := spells_trim hfirst
    rw [htext, splitTopLevel_cons (flat_of_spells p first hfirst) hbare.ne_nil, List.map_cons,
      matchPredicate_spells ctx p (trim first) hspells,
      map_matchPredicate ctx (q :: ps) rest hrest]
    rfl

end

end Kryos.CfgStrip
