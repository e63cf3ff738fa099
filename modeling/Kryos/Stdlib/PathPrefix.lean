import Mathlib
import Kryos.Stdlib.PathLaws

/-!
# Paths that start with another one

`starts_with` compares two normalised texts and looks for a slash where the shorter one ends. The
texts of a dot, of a slash and of a drive without names do not end before a slash, and there its
answer differs from the one about places.

## Main results

* `Path.place_normalize` — where a normalised text leads
* `Path.starts_of_trailing_zero` — what the comparison finds
* `Path.startsRight_iff` — when it is the one of the places
-/

namespace Kryos.Stdlib.Path

open Str LexicalPath

/-- Where a text leads. -/
def place (t : Text) : Anchor × List Text :=
  (writtenOf t, resolveNames (writtenOf t) (below t))

/-- The other path leads to the same anchor and on the way to the first one. -/
def StartsRight (p pfx : Text) : Prop :=
  startsWith p pfx = true ↔ (place (normalize p)).1 = (place (normalize pfx)).1 ∧
    (place (normalize pfx)).2 <+: (place (normalize p)).2

/-- Where the text leads that is written for the anchor and the names. -/
def written : Anchor → List Text → Anchor × List Text
  | .relative, s :: names => if isDrive s then (.drive s, names) else (.relative, s :: names)
  | a, names => (a, names)

variable {names : List Text}

theorem place_of_shows {t : Text} {a : Anchor} (h : Valid a names) (hs : Shows t a names) :
    place t = written a names := by
  by_cases hroot : a = .relative
  · subst hroot
    cases names with
    | nil =>
      rw [place, below, writtenOf, hs.lead, hs.names]
      rfl
    | cons s names =>
      have hwritten : writtenOf t = if isDrive s then .drive s else .relative := by
        rw [writtenOf, hs.lead, hs.names]
        cases names <;> simp [writtenAnchor, shown, Anchor.names, Anchor.lead]
      have hnames : rawNames t = s :: names := hs.names
      rw [place, below, hwritten, hnames, written]
      split_ifs with hdrive
      · exact Prod.ext rfl (resolveNames_of_plain (resolved_of_drive_cons hdrive h.resolved))
      · exact Prod.ext rfl (resolveNames_of_resolved h.resolved)
  · obtain ⟨hwritten, hbelow⟩ := written_of_shows h hs hroot
    rw [place, hwritten, hbelow, resolveNames_of_resolved h.resolved]
    cases a <;> first | exact absurd rfl hroot | rfl

theorem place_normalize (p : Text) : place (normalize p) = written (anchorOf p) (namesOf p) := by
  rw [normalize_eq]
  exact place_of_shows (valid_anchorOf p) (shows_render (valid_anchorOf p))

/-! ### Texts that end before a slash -/

theorem startsWith_iff_boundary (p pfx : Text) : startsWith p pfx = true ↔
    normalize pfx <+: normalize p ∧ (normalize pfx = normalize p ∨ normalize pfx = [slash] ∨
      (normalize p)[(normalize pfx).length]? = some slash) := by
  rw [startsWith]
  generalize normalize p = y, normalize pfx = x
  split_ifs with hlong htake hlen hroot
  · refine iff_of_false id fun hboth => ?_
    exact absurd hboth.1.length_le (by omega)
  · refine iff_of_false id fun hboth => htake ?_
    exact (List.prefix_iff_eq_take.mp hboth.1).symm
  · have hstart : x <+: y := List.prefix_iff_eq_take.mpr (not_not.mp htake).symm
    exact iff_of_true rfl ⟨hstart, .inl (hstart.eq_of_length hlen)⟩
  · have hstart : x <+: y := List.prefix_iff_eq_take.mpr (not_not.mp htake).symm
    exact iff_of_true rfl ⟨hstart, .inr (.inl hroot)⟩
  · have hstart : x <+: y := List.prefix_iff_eq_take.mpr (not_not.mp htake).symm
    have hne : x ≠ y := fun heq => hlen (congrArg List.length heq)
    simp [hstart, hne, hroot]

theorem append_slash_prefix_iff (x y : Text) : x ++ [slash] <+: y ++ [slash] ↔
    x <+: y ∧ (x = y ∨ y[x.length]? = some slash) := by
  constructor
  · rintro ⟨rest, hrest⟩
    obtain rfl | ⟨rest', c, rfl⟩ := rest.eq_nil_or_concat
    · rw [List.append_nil] at hrest
      have heq := List.append_cancel_right hrest
      exact ⟨heq ▸ List.prefix_refl x, .inl heq⟩
    · rw [List.concat_eq_append, ← List.append_assoc] at hrest
      obtain ⟨hy, -⟩ := List.append_inj' hrest rfl
      rw [← hy, List.append_assoc]
      exact ⟨List.prefix_append _ _, .inr (by simp)⟩
  · rintro ⟨⟨rest, rfl⟩, heq | hslash⟩
    · rw [← heq]
    · cases rest with
      | nil => simp at hslash
      | cons c rest =>
        obtain rfl : c = slash := by simpa using hslash
        exact ⟨rest ++ [slash], by simp⟩

theorem front_eq (a : Anchor) :
    front a = List.replicate a.lead slash ++ terminated slash a.names := by
  cases a <;> simp [front, terminated, Anchor.lead, Anchor.names, List.replicate_succ]

/-- Whether a slash ends the text that is written for the anchor and the names. -/
def trailing (a : Anchor) (names : List Text) : ℕ :=
  match a, names with
  | .root, [] | .drive _, [] => 1
  | _, _ => 0

theorem trailing_of_ne_nil {a : Anchor} (h : names ≠ []) : trailing a names = 0 := by
  cases names with
  | nil => exact absurd rfl h
  | cons s names => cases a <;> rfl

theorem drive_of_trailing {a : Anchor} (h : trailing a names ≠ 0) (hlead : a.lead = 0) :
    ∃ name, a = .drive name ∧ names = [] := by
  have hnil : names = [] := not_not.mp (mt trailing_of_ne_nil h)
  subst hnil
  cases a with
  | relative | unc server share => exact absurd rfl h
  | root => cases hlead
  | drive name => exact ⟨name, rfl, rfl⟩

theorem trailing_le (a : Anchor) (names : List Text) : trailing a names ≤ 1 := by
  unfold trailing
  split <;> omega

theorem render_append_slash (a : Anchor) (names : List Text) : render a names ++ [slash] =
    List.replicate a.lead slash ++ terminated slash (shown a names) ++
      List.replicate (trailing a names) slash := by
  by_cases hnil : names = []
  · subst hnil
    cases a <;> simp [render, shown, terminated, trailing, front, Anchor.lead, Anchor.names,
      List.replicate_succ]
  · have hshown : shown a names = a.names ++ names := if_neg fun hboth => hnil hboth.2
    rw [render_eq fun h => absurd h hnil, trailing_of_ne_nil hnil, hshown, front_eq,
      List.append_assoc, join_append_sep hnil, terminated, terminated, terminated, List.flatMap_append]
    simp

section

variable {a b : Anchor} {names names' : List Text}

theorem Valid.shown_isName (h : Valid a names) {s : Text} (hs : s ∈ shown a names) :
    IsName slash s := by
  rw [shown] at hs
  split_ifs at hs
  · rw [List.mem_singleton.mp hs]
    exact ⟨by decide, by decide⟩
  · exact (h.segments s hs).1

theorem shown_ne_nil (h : trailing a names = 0) : shown a names ≠ [] := by
  rw [shown]
  split_ifs with hnone
  · exact List.cons_ne_nil _ _
  · intro hnil
    obtain ⟨hanchor, rfl⟩ := List.append_eq_nil_iff.mp hnil
    cases a with
    | relative => exact hnone ⟨rfl, rfl⟩
    | root => cases h
    | drive name | unc server share => cases hanchor

theorem head_render (h : Valid a names) : (render a names).head? = some slash ↔ a.lead ≠ 0 := by
  cases a with
  | relative =>
    refine iff_of_false ?_ (not_not.mpr rfl)
    by_cases hnil : names = []
    · rw [hnil]
      decide
    · rw [render_eq fun heq => absurd heq hnil]
      exact head_join fun s hs => h.isName hs
  | drive name =>
    refine iff_of_false ?_ (not_not.mpr rfl)
    rw [render_eq fun _ => ⟨name, rfl⟩, front, List.append_assoc]
    exact head_append_of_isName (h.anchor_isName List.mem_cons_self) _
  | root | unc _ _ =>
    refine iff_of_true ?_ (Nat.succ_ne_zero _)
    rw [render]
    split_ifs <;> rfl

/-- No slash stands at the end of the prefix, so that the names decide. -/
theorem render_prefix_iff (h : Valid a names) (h' : Valid b names') (hend : trailing a names = 0) :
    render a names ++ [slash] <+: render b names' ++ [slash] ↔
      a.lead = b.lead ∧ shown a names <+: shown b names' := by
  rw [render_append_slash, render_append_slash, hend, List.replicate_zero, List.append_nil]
  exact lead_terminated_prefix_iff (fun _ hs => h.shown_isName hs) (fun _ hs => h'.shown_isName hs)
    (shown_ne_nil hend) _ _ (trailing_le b names')

variable {rest : List Text}

theorem written_of_lead_zero {c : Text} (h : Valid a names) (hlead : a.lead = 0)
    (heq : a.names ++ names = c :: rest) :
    written a names = if isDrive c then (.drive c, rest) else (.relative, c :: rest) := by
  cases a with
  | relative =>
    obtain rfl : names = c :: rest := heq
    rfl
  | root | unc server share => cases hlead
  | drive name =>
    obtain ⟨rfl, rfl⟩ := List.cons.inj heq
    rw [if_pos (h.drive name rfl)]
    rfl

/-- Names that begin alike are read alike. -/
theorem written_prefix_iff {c d : Text} {rest' : List Text} {x y : Anchor × List Text}
    (hx : x = if isDrive c then (.drive c, rest) else (.relative, c :: rest))
    (hy : y = if isDrive d then (.drive d, rest') else (.relative, d :: rest')) :
    y.1 = x.1 ∧ x.2 <+: y.2 ↔ c :: rest <+: d :: rest' := by
  rw [List.cons_prefix_cons, hx, hy]
  split_ifs with hd hc hc
  · simp [eq_comm]
  · refine iff_of_false (fun hboth => by cases hboth.1) ?_
    rintro ⟨rfl, -⟩
    exact hc hd
  · refine iff_of_false (fun hboth => by cases hboth.1) ?_
    rintro ⟨rfl, -⟩
    exact hd hc
  · simp

theorem lead_written (a : Anchor) (names : List Text) : (written a names).1.lead = a.lead := by
  cases a with
  | relative =>
    cases names with
    | nil => rfl
    | cons s names =>
      rw [written]
      split_ifs <;> rfl
  | root | drive name | unc server share => rfl

theorem written_eq_relative : (written a names).1 = .relative ↔
    a = .relative ∧ ∀ s ∈ names.head?, isDrive s = false := by
  cases a with
  | relative =>
    cases names with
    | nil => simp [written]
    | cons s names =>
      rw [written]
      split_ifs with hdrive <;> simp [hdrive]
  | root | drive name | unc server share => simp [written]

theorem written_eq_drive {name : Text} (hdrive : isDrive name = true) :
    (written a names).1 = .drive name ↔
      a = .drive name ∨ a = .relative ∧ name ∈ names.head? := by
  cases a with
  | relative =>
    cases names with
    | nil => simp [written]
    | cons s names =>
      rw [written]
      split_ifs with hs
      · simp
      · simp only [true_and, false_or, List.head?_cons, Option.mem_some_iff, false_iff]
        rintro rfl
        exact hs hdrive
  | root | drive _ | unc _ _ => simp [written]

theorem written_eq_root : (written a names).1 = .root ↔ a = .root := by
  cases a with
  | relative =>
    cases names with
    | nil => simp [written]
    | cons s names =>
      rw [written]
      split_ifs <;> simp
  | root | drive name | unc server share => simp [written]

/-- The names of a place that is not written with a dot. -/
theorem written_prefix_shown_iff {c : Text} (h : Valid a names) (h' : Valid b names')
    (hlead : a.lead = 0) (hlead' : b.lead = 0) (heq : a.names ++ names = c :: rest) :
    (written b names').1 = (written a names).1 ∧ (written a names).2 <+: (written b names').2 ↔
      c :: rest <+: shown b names' := by
  have ha := written_of_lead_zero h hlead heq
  rw [shown]
  split_ifs with hdot
  · obtain ⟨rfl, rfl⟩ := hdot
    have hc : c ≠ dot := by
      cases a with
      | relative =>
        have hnames : names = c :: rest := heq
        exact h.ne_dot (hnames ▸ List.mem_cons_self)
      | drive name => exact (List.cons.inj heq).1 ▸ (isDrive_ne_dots (h.drive name rfl)).1
      | root | unc _ _ => cases hlead
    have hb : written .relative [] = (.relative, []) := rfl
    rw [ha, hb]
    split_ifs <;> simp [List.cons_prefix_cons, hc]
  · cases hall : b.names ++ names' with
    | nil =>
      obtain ⟨hnone, rfl⟩ := List.append_eq_nil_iff.mp hall
      cases b with
      | relative => exact absurd ⟨rfl, rfl⟩ hdot
      | drive name => cases hnone
      | root | unc _ _ => cases hlead'
    | cons d rest' => exact written_prefix_iff ha (written_of_lead_zero h' hlead' hall)

theorem prefix_shown_iff (h : Valid a names) (h' : Valid b names')
    (hend : names = [] → ∃ server share, a = .unc server share) :
    a.lead = b.lead ∧ shown a names <+: shown b names' ↔
      (written b names').1 = (written a names).1 ∧
        (written a names).2 <+: (written b names').2 := by
  have hshown : shown a names = a.names ++ names := if_neg fun hboth => by
    obtain ⟨server, share, heq⟩ := hend hboth.2
    rw [hboth.1] at heq
    cases heq
  by_cases hlead : a.lead = b.lead
  · rw [and_iff_right hlead, hshown]
    cases a with
    | relative =>
      cases names with
      | nil =>
        obtain ⟨_, _, heq⟩ := hend rfl
        cases heq
      | cons c rest => exact (written_prefix_shown_iff h h' rfl hlead.symm rfl).symm
    | drive name => exact (written_prefix_shown_iff h h' rfl hlead.symm rfl).symm
    | root =>
      cases b <;> cases hlead
      simp [written, shown, Anchor.names]
    | unc server share =>
      cases b <;> cases hlead
      simp [written, shown, Anchor.names, List.cons_prefix_cons, eq_comm, and_assoc]
  · refine iff_of_false (fun hboth => hlead hboth.1) fun hboth => hlead ?_
    rw [← lead_written a names, ← lead_written b names', hboth.1]

end

/-- What the place of the prefix leaves open when no name is below its anchor: its text is a dot, a
slash, or a drive with a slash behind it. -/
def PrefixFits (p pfx : Text) : Prop :=
  namesOf pfx = [] →
    (anchorOf pfx = .relative → anchorOf p = .relative →
      namesOf p = [] ∨ ∃ s ∈ (namesOf p).head?, isDrive s = true) ∧
    (anchorOf pfx = .root → ∀ server share, anchorOf p ≠ .unc server share) ∧
    ∀ name, anchorOf pfx = .drive name →
      (anchorOf p = .drive name → namesOf p = []) ∧
        (anchorOf p = .relative → name ∉ (namesOf p).head?)

section

variable {p pfx : Text}

theorem starts_iff_append_slash (h : normalize pfx ≠ [slash]) : startsWith p pfx = true ↔
    normalize pfx ++ [slash] <+: normalize p ++ [slash] := by
  rw [startsWith_iff_boundary, append_slash_prefix_iff, or_iff_right h]

theorem starts_of_trailing_zero (hend : trailing (anchorOf pfx) (namesOf pfx) = 0) :
    startsWith p pfx = true ↔ (anchorOf pfx).lead = (anchorOf p).lead ∧
      shown (anchorOf pfx) (namesOf pfx) <+: shown (anchorOf p) (namesOf p) := by
  have hne : normalize pfx ≠ [slash] := by
    intro hslash
    have hnames := (shows_render (valid_anchorOf pfx)).names
    rw [← normalize_eq, hslash] at hnames
    exact shown_ne_nil hend hnames.symm
  rw [starts_iff_append_slash hne, normalize_eq, normalize_eq,
    render_prefix_iff (valid_anchorOf pfx) (valid_anchorOf p) hend]

theorem starts_of_dot (ha : anchorOf pfx = .relative) (hnil : namesOf pfx = []) :
    startsWith p pfx = true ↔ anchorOf p = .relative ∧ namesOf p = [] := by
  have hvalid := valid_anchorOf p
  rw [starts_of_trailing_zero (by rw [ha, hnil]; rfl), ha, hnil]
  constructor
  · rintro ⟨hlead, hstart⟩
    by_contra hnot
    rw [shown, if_pos ⟨rfl, rfl⟩, shown, if_neg hnot] at hstart
    cases hanchor : anchorOf p with
    | relative =>
      have hmem := hstart.subset List.mem_cons_self
      rw [hanchor] at hmem
      exact hvalid.ne_dot hmem rfl
    | drive name =>
      rw [hanchor] at hstart
      obtain ⟨heq, -⟩ := List.cons_prefix_cons.mp hstart
      exact (isDrive_ne_dots (hvalid.drive name hanchor)).1 heq.symm
    | root | unc server share =>
      rw [hanchor] at hlead
      cases hlead
  · rintro ⟨hanchor, hnames⟩
    rw [hanchor, hnames]
    exact ⟨rfl, List.prefix_refl _⟩

theorem starts_of_root (ha : anchorOf pfx = .root) (hnil : namesOf pfx = []) :
    startsWith p pfx = true ↔ (anchorOf p).lead ≠ 0 := by
  have hpfx : normalize pfx = [slash] := by
    rw [normalize_eq, ha, hnil]
    rfl
  rw [startsWith_iff_boundary, hpfx, and_iff_left (.inr (.inl rfl)), normalize_eq,
    ← head_render (valid_anchorOf p)]
  cases render (anchorOf p) (namesOf p) with
  | nil => simp
  | cons c t => simp [List.cons_prefix_cons, eq_comm]

theorem starts_of_drive {name : Text} (ha : anchorOf pfx = .drive name) (hnil : namesOf pfx = []) :
    startsWith p pfx = true ↔ anchorOf p = .drive name ∧ namesOf p = [] := by
  have hname := isName_of_isDrive ((valid_anchorOf pfx).drive name ha)
  have hpfx : normalize pfx = name ++ [slash] := by
    rw [normalize_eq, ha, hnil]
    rfl
  have hne : normalize pfx ≠ [slash] := by
    rw [hpfx]
    simpa using hname.1
  rw [starts_iff_append_slash hne, hpfx]
  constructor
  · intro hstart
    have hvalid := valid_anchorOf p
    rw [normalize_eq, render_append_slash] at hstart
    have hterminated : terminated slash [name] = name ++ [slash] := List.append_nil _
    have hfirst : List.replicate 0 slash ++ terminated slash [name] <+:
        name ++ [slash] ++ [slash] := by
      rw [hterminated]
      exact List.prefix_append _ _
    obtain ⟨hlead, rest, hrest⟩ := (lead_terminated_prefix_iff
      (List.forall_mem_singleton.mpr hname) (fun _ hs => hvalid.shown_isName hs)
      (List.cons_ne_nil name []) _ _ (trailing_le _ _)).mp (hfirst.trans hstart)
    -- the drive is the first name, and the text ends with the slash behind it
    have hsplit : terminated slash ([name] ++ rest) = name ++ [slash] ++ terminated slash rest := by
      rw [terminated, List.flatMap_append, ← terminated, ← terminated, hterminated]
    rw [← hlead, ← hrest, hsplit, List.replicate_zero, List.nil_append,
      List.append_assoc (name ++ [slash]), List.prefix_append_right_inj] at hstart
    have hnil : rest = [] := by
      by_contra hne
      obtain ⟨c, t, heq, hc⟩ := head_terminated
        (fun s hs => hvalid.shown_isName (hrest ▸ List.mem_append_right [name] hs)) hne
      rw [heq, List.cons_append, List.cons_prefix_cons] at hstart
      exact hc hstart.1.symm
    subst hnil
    have hend : trailing (anchorOf p) (namesOf p) ≠ 0 := by
      intro hzero
      rw [hzero] at hstart
      cases List.prefix_nil.mp hstart
    obtain ⟨name', hanchor, hnames⟩ := drive_of_trailing hend hlead.symm
    rw [hanchor, hnames] at hrest
    obtain ⟨rfl, -⟩ := List.cons.inj hrest
    exact ⟨hanchor, hnames⟩
  · rintro ⟨hanchor, hnames⟩
    rw [normalize_eq, hanchor, hnames]
    exact List.prefix_refl _

/-- `starts_with` compares places unless nothing is below the anchor of the prefix. -/
theorem startsRight_iff : StartsRight p pfx ↔ PrefixFits p pfx := by
  have hvalid := valid_anchorOf pfx
  rw [StartsRight, place_normalize, place_normalize, PrefixFits]
  by_cases hnil : namesOf pfx = []
  · rw [forall_prop_of_true hnil]
    cases ha : anchorOf pfx with
    | relative =>
      have hpfx : written .relative (namesOf pfx) = (.relative, []) := by rw [hnil]; rfl
      rw [starts_of_dot ha hnil, hpfx, and_iff_left List.nil_prefix, written_eq_relative]
      simp only [reduceCtorEq, false_imp_iff, implies_true, and_true, forall_const]
      cases namesOf p <;> simp
    | root =>
      have hpfx : written .root (namesOf pfx) = (.root, []) := by rw [hnil]; rfl
      rw [starts_of_root ha hnil, hpfx, and_iff_left List.nil_prefix, written_eq_root]
      cases anchorOf p <;> simp [Anchor.lead]
    | drive name =>
      have hpfx : written (.drive name) (namesOf pfx) = (.drive name, []) := by rw [hnil]; rfl
      rw [starts_of_drive ha hnil, hpfx, and_iff_left List.nil_prefix,
        written_eq_drive (hvalid.drive name ha)]
      by_cases hdrive : anchorOf p = .drive name
      · simp [hdrive]
      · simp [hdrive]
    | unc server share =>
      refine iff_of_true ?_ ⟨by rintro ⟨⟩, by rintro ⟨⟩, by rintro _ ⟨⟩⟩
      have hend : trailing (anchorOf pfx) (namesOf pfx) = 0 := by rw [ha]; rfl
      rw [starts_of_trailing_zero hend, ← ha,
        prefix_shown_iff hvalid (valid_anchorOf p) fun _ => ⟨server, share, ha⟩]
  · refine iff_of_true ?_ fun h => absurd h hnil
    rw [starts_of_trailing_zero (trailing_of_ne_nil hnil),
      prefix_shown_iff hvalid (valid_anchorOf p) fun h => absurd h hnil]

end

end Kryos.Stdlib.Path
