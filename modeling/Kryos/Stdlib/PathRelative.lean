import Mathlib
import Kryos.Stdlib.PathPrefix

/-!
# The way from one path to another

`relative` writes the way between two normalised paths, and `join` follows it. It does not always
lead to the goal: a path that leads nowhere is split into a dot, which counts as a name to climb out
of, and what stands behind a slash may read as an anchor of another kind.

## Main results

* `Path.exists_join_relative` — the path that is followed
* `Path.leads_iff` — when it leads to the goal
* `Path.laws_iff` — when the laws hold
-/

namespace Kryos.Stdlib.Path

open Str LexicalPath

/-! ## The parts of a normalised path -/

def rootParts (a : Anchor) : List Text := if a.lead = 0 then [] else [[slash]]

variable {a : Anchor}

theorem shown_ne_nil_of_lead (hlead : a.lead = 0) (names : List Text) : shown a names ≠ [] := by
  rw [shown]
  split_ifs with hdot
  · exact List.cons_ne_nil _ _
  · intro hnil
    obtain ⟨hanchor, rfl⟩ := List.append_eq_nil_iff.mp hnil
    cases a with
    | relative => exact hdot ⟨rfl, rfl⟩
    | drive name => cases hanchor
    | root | unc _ _ => cases hlead

variable {names : List Text}

theorem split_of_shows {t : Text} (hs : Shows t a names) :
    split t = rootParts a ++ shown a names := by
  have hnames : splitPath (toForwardSlashes t) = shown a names := hs.names
  have hhead := head_iff_lead (toForwardSlashes t)
  have hlead : leadOf (toForwardSlashes t) = a.lead := hs.lead
  have hfilter : (splitPath (toForwardSlashes t)).filter (· ≠ []) = shown a names := by
    rw [← hnames]
    exact List.filter_eq_self.mpr fun s hs' => decide_eq_true (isName_of_mem_split hs').1
  have hroot : (if (toForwardSlashes t).head? = some slash then [[slash]] else []) =
      rootParts a := by
    rw [rootParts, ite_cond_congr (propext hhead), hlead, ite_not]
  have hne : toForwardSlashes t ≠ [] := by
    intro hnil
    rw [hnil] at hnames hlead
    exact shown_ne_nil_of_lead hlead.symm names hnames.symm
  have hparts : rootParts a ++ shown a names ≠ [] := by
    intro hnil
    obtain ⟨hnone, hshown⟩ := List.append_eq_nil_iff.mp hnil
    rw [rootParts] at hnone
    split_ifs at hnone with hzero
    exact shown_ne_nil_of_lead hzero names hshown
  rw [split, if_neg hne, hfilter, hroot, if_neg hparts]

theorem split_normalize (p : Text) :
    split (normalize p) = rootParts (anchorOf p) ++ shown (anchorOf p) (namesOf p) := by
  rw [normalize_eq]
  exact split_of_shows (shows_render (valid_anchorOf p))

/-! ## The way that is written -/

/-- Up from where the parts differ, and down from there. The root is no name. -/
def partsWay (fromParts toParts : List Text) : List Text :=
  ((fromParts.drop (commonLength fromParts toParts)).filter (· ≠ [slash])).map (fun _ => dotdot) ++
    (toParts.drop (commonLength fromParts toParts)).filter (· ≠ [slash])

/-- The names of the way. -/
def wayNames (src dst : Text) : List Text :=
  let result := partsWay (split (normalize src)) (split (normalize dst))
  if result = [] then [dot] else result

theorem relative_eq (src dst : Text) :
    relative src dst = LexicalPath.join slash (wayNames src dst) := by
  rw [relative, wayNames, partsWay]
  split_ifs
  · rfl
  · exact appendSegments_eq [] _

theorem wayNames_ne_nil (src dst : Text) : wayNames src dst ≠ [] := by
  rw [wayNames]
  split_ifs with hnil
  · exact List.cons_ne_nil _ _
  · exact hnil

theorem isSegment_dot : IsSegment dot := ⟨⟨by decide, by decide⟩, by decide⟩

theorem isSegment_dotdot : IsSegment dotdot := ⟨⟨by decide, by decide⟩, by decide⟩

theorem isSegment_of_mem_shown (h : Valid a names) {s : Text} (hs : s ∈ shown a names)
    : IsSegment s := by
  rw [shown] at hs
  split_ifs at hs
  · rw [List.mem_singleton.mp hs]
    exact isSegment_dot
  · exact h.segments s hs

theorem isSegment_of_mem_wayNames {src dst s : Text} (hs : s ∈ wayNames src dst) :
    IsSegment s := by
  rw [wayNames] at hs
  split_ifs at hs
  · rw [List.mem_singleton.mp hs]
    exact isSegment_dot
  · obtain hs | hs := List.mem_append.mp hs
    · obtain ⟨_, -, rfl⟩ := List.mem_map.mp hs
      exact isSegment_dotdot
    · obtain ⟨hs, hroot⟩ := List.mem_filter.mp hs
      have hparts := List.mem_of_mem_drop hs
      rw [split_normalize, rootParts] at hparts
      obtain hs | hs := List.mem_append.mp hparts
      · split_ifs at hs
        · cases hs
        · exact absurd (List.mem_singleton.mp hs) (of_decide_eq_true hroot)
      · exact isSegment_of_mem_shown (valid_anchorOf dst) hs

/-! ### Following the way -/

theorem leadOf_append {t x : Text} (ht : t ≠ []) (hx : t = [slash] → x.head? ≠ some slash) :
    leadOf (t ++ x) = leadOf t := by
  match t with
  | [] => exact absurd rfl ht
  | [c] =>
    cases x with
    | nil => rfl
    | cons d x =>
      simp only [List.singleton_append, leadOf]
      split_ifs with hc hd
      · exact absurd (congrArg some hd) (hx (congrArg (fun c => [c]) hc))
      · rfl
      · rfl
  | c :: d :: t => rfl

theorem toForwardSlashes_append (t x : Text) :
    toForwardSlashes (t ++ x) = toForwardSlashes t ++ toForwardSlashes x :=
  List.map_append

theorem isSeparator_iff (c : UInt8) : isSeparator (some c) = true ↔
    toForwardSlashes [c] = [slash] := by
  simp only [isSeparator, toForwardSlashes, List.map_cons, List.map_nil, List.cons.injEq, and_true]
  split_ifs with hc <;> simp [hc]

theorem join_pair {src way : Text} (hway : way ≠ []) (hhead : isSeparator way.head? = false) :
    join [src, way] = normalize (if src = [] then way
      else if isSeparator src.getLast? then src ++ way else src ++ [slash] ++ way) := by
  have hstep : joinStep [] src = src := by
    by_cases hnil : src = []
    · rw [hnil]
      rfl
    · rw [joinStep, if_neg hnil, if_pos rfl]
  rw [join, if_neg (List.cons_ne_nil _ _), List.foldl_cons, List.foldl_cons, List.foldl_nil, hstep,
    joinStep, if_neg hway, hhead, Bool.or_false, if_neg]
  split_ifs <;> simp [hway]

/-- The path that is followed has the names of the start and then those of the way. -/
theorem exists_join (src : Text) (hne : names ≠ []) (h : ∀ s ∈ names, IsSegment s) :
    ∃ joined, join [src, LexicalPath.join slash names] = normalize joined ∧
      rawNames joined = rawNames src ++ names ∧ rawLead joined = rawLead src := by
  have hname : ∀ s ∈ names, IsName slash s := fun s hs => (h s hs).1
  have hback := not_mem_join h
  have hhead := head_join hname
  have hforward := toForwardSlashes_of_not_mem hback
  have hnil := join_ne_nil hname hne
  have hsplit : splitPath (LexicalPath.join slash names) = names := split_join hname
  generalize LexicalPath.join slash names = way at hback hhead hforward hnil hsplit
  have hopen : isSeparator way.head? = false := by
    cases way with
    | nil => rfl
    | cons c way =>
      have hc : c ≠ backslash := fun heq => hback (heq ▸ List.mem_cons_self)
      have hc' : c ≠ slash := fun heq => hhead (congrArg some heq)
      simp [isSeparator, hc, hc']
  refine ⟨_, join_pair hnil hopen, ?_⟩
  rw [rawNames, rawNames, rawLead, rawLead]
  split_ifs with hsrc hlast
  · rw [hsrc, hforward, hsplit, leadOf_of_head hhead]
    exact ⟨rfl, rfl⟩
  · obtain rfl | ⟨t, c, rfl⟩ := src.eq_nil_or_concat
    · exact absurd rfl hsrc
    rw [List.concat_eq_append, List.getLast?_concat, isSeparator_iff] at hlast
    rw [List.concat_eq_append, toForwardSlashes_append, hforward, toForwardSlashes_append, hlast,
      List.append_assoc, List.singleton_append, splitPath, split_append_sep, splitPath,
      split_append_sep, split_nil, List.append_nil]
    refine ⟨congrArg _ hsplit, ?_⟩
    rw [← List.singleton_append, ← List.append_assoc]
    exact leadOf_append (by simp) fun _ => hhead
  · rw [List.append_assoc, List.singleton_append, toForwardSlashes_append]
    have hcons : toForwardSlashes (slash :: way) = slash :: way := by
      rw [← List.singleton_append, toForwardSlashes_append, hforward]
      rfl
    rw [hcons, splitPath, split_append_sep]
    refine ⟨congrArg _ hsplit, leadOf_append (by simpa [toForwardSlashes] using hsrc) fun heq => ?_⟩
    obtain ⟨c, hc, hslash⟩ := List.map_eq_singleton_iff.mp heq
    rw [hc, List.getLast?_singleton, isSeparator_iff, toForwardSlashes, List.map_cons,
      hslash] at hlast
    exact absurd rfl hlast

/-- Normalising what is followed once more does not change where it leads. -/
theorem exists_join_relative (src dst : Text) :
    ∃ joined, normalize (join [src, relative src dst]) =
        render (reread (anchorOf joined) (namesOf joined)).1
          (reread (anchorOf joined) (namesOf joined)).2 ∧
      rawNames joined = rawNames src ++ wayNames src dst ∧ rawLead joined = rawLead src := by
  obtain ⟨joined, heq, hnames, hlead⟩ :=
    exists_join src (wayNames_ne_nil src dst) fun _ hs => isSegment_of_mem_wayNames hs
  exact ⟨joined, by rw [relative_eq, heq, normalize_normalize], hnames, hlead⟩

/-! ### Where the way leads -/

theorem filter_ne_slash (h : ∀ s ∈ names, IsName slash s) : names.filter (· ≠ [slash]) = names := by
  refine List.filter_eq_self.mpr fun s hs => decide_eq_true ?_
  rintro rfl
  exact (h _ hs).2 List.mem_cons_self

variable {names' : List Text}

/-- What the paths have in common first is not on the way. -/
theorem partsWay_append {parts : List Text} (h : ∀ s ∈ names, IsName slash s)
    (h' : ∀ s ∈ names', IsName slash s) :
    partsWay (parts ++ names) (parts ++ names') = way dotdot names names' := by
  rw [partsWay, commonLength_append, ← List.drop_drop, ← List.drop_drop, List.drop_left,
    List.drop_left, filter_ne_slash fun s hs => h s (List.mem_of_mem_drop hs),
    filter_ne_slash fun s hs => h' s (List.mem_of_mem_drop hs), List.map_const', List.length_drop,
    way]

section

variable {rooted : Bool} {stack names : List Text}

theorem resolve_dot (stack : List Text) :
    LexicalPath.resolve dot dotdot rooted stack [dot] = stack := rfl

/-- The dot that is written for no names leads nowhere. -/
theorem resolve_wayNames (src dst : Text) (stack : List Text) :
    LexicalPath.resolve dot dotdot rooted stack (wayNames src dst) =
      LexicalPath.resolve dot dotdot rooted stack
        (partsWay (split (normalize src)) (split (normalize dst))) := by
  rw [wayNames]
  split_ifs with hnil
  · rw [hnil]
    rfl
  · rfl

theorem readAnchor_append {l : ℕ} (hne : names ≠ []) (hunc : ¬(l = 2 ∧ names.length = 1))
    (more : List Text) : readAnchor l (names ++ more) = readAnchor l names := by
  match names with
  | [] => exact absurd rfl hne
  | [s] =>
    have hl : l ≠ 2 := fun heq => hunc ⟨heq, rfl⟩
    cases more <;> simp [readAnchor, hl]
  | _ :: _ :: _ => rfl

/-- A path that is followed from the start on leads on from where the start leads. -/
theorem namesOf_followed {src joined : Text} {more : List Text}
    (hnames : rawNames joined = rawNames src ++ more) (hanchor : anchorOf joined = anchorOf src) :
    namesOf joined =
      LexicalPath.resolve dot dotdot (anchorOf src).rooted (namesOf src) more := by
  have hlen : (anchorOf src).names.length ≤ (rawNames src).length := by
    have hall := congrArg List.length (names_append_drop (rawLead src) (rawNames src))
    rw [List.length_append] at hall
    exact Nat.le.intro hall
  rw [namesOf, hanchor, hnames, List.drop_append_of_le_length hlen, resolveNames, resolve_append]
  rfl

end

/-- The two texts show the same place. -/
theorem shown_of_render_eq {b : Anchor} (h : Valid a names) (h' : Valid b names')
    (heq : render a names = render b names') :
    a.lead = b.lead ∧ shown a names = shown b names' := by
  have hs := shows_render h
  have hs' := shows_render h'
  rw [heq] at hs
  exact ⟨hs.lead.symm.trans hs'.lead, hs.names.symm.trans hs'.names⟩

/-- Reading again changes neither the names that are shown nor, without a root, the slashes. -/
theorem shown_reread (hroot : a ≠ .root) :
    (reread a names).1.lead = a.lead ∧
      shown (reread a names).1 (reread a names).2 = shown a names := by
  cases a with
  | relative =>
    cases names with
    | nil => exact ⟨rfl, rfl⟩
    | cons s names =>
      rw [reread]
      split_ifs
      · exact ⟨rfl, rfl⟩
      · exact ⟨rfl, rfl⟩
  | root => exact absurd rfl hroot
  | drive name => exact ⟨rfl, rfl⟩
  | unc server share => exact ⟨rfl, rfl⟩

theorem reread_reread (a : Anchor) (names : List Text) :
    reread (reread a names).1 (reread a names).2 = reread a names := by
  cases a with
  | relative | root =>
    cases names with
    | nil => rfl
    | cons s names =>
      by_cases hdrive : isDrive s = true
      · simp [reread, hdrive]
      · simp [reread, hdrive]
  | drive name | unc server share => rfl

theorem eq_of_shown_relative (h : Valid .relative names) (h' : Valid .relative names')
    (heq : shown .relative names = shown .relative names') : names = names' := by
  rw [shown, shown] at heq
  split_ifs at heq with hnil hnil' hnil'
  · rw [hnil.2, hnil'.2]
  · have hnames : [dot] = names' := heq
    exact absurd rfl (h'.ne_dot (hnames ▸ List.mem_cons_self))
  · have hnames : names = [dot] := heq
    exact absurd rfl (h.ne_dot (hnames ▸ List.mem_cons_self))
  · exact heq

/-! ## When the way leads to the goal -/

/-- The paths have one anchor, or both have none and do not begin with `..`. -/
def Comparable (src dst : Text) : Prop :=
  writtenOf src = writtenOf dst ∧ (writtenOf src = .relative →
    dotdot ∉ (rawNames src).head? ∧ dotdot ∉ (rawNames dst).head?)

/-- The way leads to where the goal is. -/
def Leads (src dst : Text) : Prop := normalize (join [src, relative src dst]) = normalize dst

structure WayFits (src dst : Text) : Prop where
  stable : Stable (anchorOf dst) (namesOf dst)
  climb : anchorOf src = .relative →
    (namesOf src).count dotdot ≤ (namesOf dst).count dotdot ∧ (namesOf src = [] → namesOf dst = [])
  drive : ∀ name, anchorOf src = .drive name → anchorOf dst = .drive name
  slashes : rawLead src = 2 → writtenOf src = .root →
    rawNames src = [] ∧ ((anchorOf dst).names ++ namesOf dst).length ≤ 1

/-! ### Without an anchor -/

section

variable {names names' : List Text}

theorem count_of_resolved {k : ℕ} {t : List Text} (ht : Plain dot dotdot t) :
    (List.replicate k dotdot ++ t).count dotdot = k := by
  rw [List.count_append, List.count_replicate_self, List.count_eq_zero.mpr fun hmem =>
    (ht dotdot hmem).2 rfl, Nat.add_zero]

theorem way_dot (h : Valid .relative names') (hne : names' ≠ []) :
    way dotdot [dot] names' = dotdot :: names' := by
  refine (way_of_head_ne (.inl ?_)).trans rfl
  cases names' with
  | nil => exact absurd rfl hne
  | cons s names' =>
    have hdot := h.ne_dot List.mem_cons_self
    simpa using hdot.symm

/-- The dot that stands for the goal changes nothing. -/
theorem resolve_way_dot (h : Valid .relative names) (hne : names ≠ []) (stack : List Text) :
    LexicalPath.resolve dot dotdot false stack (way dotdot names [dot]) =
      LexicalPath.resolve dot dotdot false stack (way dotdot names []) := by
  have hhead : names.head? ≠ [dot].head? := by
    cases names with
    | nil => exact absurd rfl hne
    | cons s names =>
      have hdot := h.ne_dot List.mem_cons_self
      simpa using hdot
  have hnone : names.head? ≠ ([] : List Text).head? := by simpa using hne
  rw [way_of_head_ne (.inl hhead), way_of_head_ne (.inl hnone), List.append_nil, resolve_append,
    resolve_dot]

theorem resolve_relative_iff (h : Valid .relative names) (h' : Valid .relative names') :
    LexicalPath.resolve dot dotdot false names
        (way dotdot (shown .relative names) (shown .relative names')) = names' ↔
      names.count dotdot ≤ names'.count dotdot ∧ (names = [] → names' = []) := by
  have hshown {m : List Text} (hm : m ≠ []) : shown .relative m = m :=
    if_neg fun hboth => hm hboth.2
  have hdot : shown .relative [] = [dot] := rfl
  by_cases hnil : names = []
  · subst hnil
    by_cases hnil' : names' = []
    · subst hnil'
      exact iff_of_true rfl ⟨Nat.le_refl _, fun _ => rfl⟩
    · obtain ⟨k, t, rfl, ht, -⟩ := h'.resolved
      have hup : Resolved dot dotdot false (dotdot :: (List.replicate k dotdot ++ t)) :=
        ⟨k + 1, t, by rw [List.replicate_succ, List.cons_append], ht, nofun⟩
      rw [hdot, hshown hnil', way_dot h' hnil', resolve_resolved dot_ne_dotdot hup]
      refine iff_of_false (fun heq => ?_) fun hboth => hnil' (hboth.2 rfl)
      have hlen := congrArg List.length heq
      simp at hlen
  · obtain ⟨k, t, hk, ht, -⟩ := h.resolved
    obtain ⟨j, u, hj, hu, -⟩ := h'.resolved
    have hiff : LexicalPath.resolve dot dotdot false names (way dotdot names names') = names' ↔
        k ≤ j := by
      rw [hk, hj]
      exact resolve_way_iff dot_ne_dotdot ht hu nofun
    have hcount : names.count dotdot = k := hk ▸ count_of_resolved ht
    have hcount' : names'.count dotdot = j := hj ▸ count_of_resolved hu
    rw [hcount, hcount', hshown hnil, and_iff_left fun heq => absurd heq hnil, ← hiff]
    by_cases hnil' : names' = []
    · rw [hnil', hdot, resolve_way_dot h hnil]
    · rw [hshown hnil']

end

section

variable {src dst : Text}

theorem wayNames_of_relative (ha : anchorOf src = .relative) (hb : anchorOf dst = .relative) :
    partsWay (split (normalize src)) (split (normalize dst)) =
      way dotdot (shown .relative (namesOf src)) (shown .relative (namesOf dst)) := by
  have hvalid := valid_anchorOf src
  have hvalid' := valid_anchorOf dst
  rw [ha] at hvalid
  rw [hb] at hvalid'
  rw [split_normalize, split_normalize, ha, hb]
  exact partsWay_append (fun _ hs => hvalid.shown_isName hs) fun _ hs => hvalid'.shown_isName hs

/-- A path that leads nowhere is left by a dot or upwards. -/
theorem wayNames_of_empty (ha : anchorOf src = .relative) (hb : anchorOf dst = .relative)
    (hnil : namesOf src = []) :
    ∃ s rest, wayNames src dst = s :: rest ∧ isDrive s = false := by
  have hway := wayNames_of_relative ha hb
  have hvalid' := valid_anchorOf dst
  rw [hb] at hvalid'
  rw [wayNames]
  split_ifs with hempty
  · exact ⟨dot, [], rfl, rfl⟩
  · rw [hway, hnil] at hempty ⊢
    by_cases hnil' : namesOf dst = []
    · rw [hnil'] at hempty
      exact absurd rfl hempty
    · have hshown : shown .relative (namesOf dst) = namesOf dst :=
        if_neg fun hboth => hnil' hboth.2
      have hdot : shown .relative [] = [dot] := rfl
      rw [hdot, hshown, way_dot hvalid' hnil']
      exact ⟨dotdot, _, rfl, rfl⟩

theorem lead_of_relative (h : anchorOf src = .relative) : rawLead src = 0 := by
  by_contra hlead
  have hrooted : (anchorOf src).rooted = true := PathExt.rooted_of_lead hlead (rawNames src)
  rw [h] at hrooted
  cases hrooted

theorem anchorOf_followed_relative {joined : Text} (ha : anchorOf src = .relative)
    (hb : anchorOf dst = .relative) (hnames : rawNames joined = rawNames src ++ wayNames src dst)
    (hlead : rawLead joined = rawLead src) : anchorOf joined = .relative := by
  have hzero := lead_of_relative ha
  by_cases hraw : rawNames src = []
  · have hnil : namesOf src = [] := by
      rw [namesOf, hraw, List.drop_nil]
      rfl
    obtain ⟨s, rest, hway, hdrive⟩ := wayNames_of_empty ha hb hnil
    rw [anchorOf, hlead, hzero, hnames, hraw, hway, List.nil_append, PathExt.readAnchor_zero_cons,
      if_neg (Bool.eq_false_iff.mp hdrive)]
  · rw [anchorOf, hlead, hnames, readAnchor_append hraw fun hboth => by omega]
    exact ha

/-- Between paths without an anchor the way has to lead up far enough, and from somewhere. -/
theorem leads_relative_iff (ha : anchorOf src = .relative) (hb : anchorOf dst = .relative) :
    Leads src dst ↔ Stable (anchorOf dst) (namesOf dst) ∧
      (namesOf src).count dotdot ≤ (namesOf dst).count dotdot ∧
      (namesOf src = [] → namesOf dst = []) := by
  obtain ⟨joined, heq, hnames, hlead⟩ := exists_join_relative src dst
  have hanchor := anchorOf_followed_relative ha hb hnames hlead
  have hfollowed := namesOf_followed hnames (hanchor.trans ha.symm)
  rw [resolve_wayNames, wayNames_of_relative ha hb] at hfollowed
  have hvalid := valid_anchorOf src
  have hvalid' := valid_anchorOf dst
  have hvalidJ := valid_anchorOf joined
  rw [ha] at hvalid hfollowed
  rw [hb] at hvalid'
  rw [hanchor] at hvalidJ heq
  rw [Leads, heq, ← resolve_relative_iff hvalid hvalid', normalize_eq dst, hb]
  have hstable := write_reread_iff (fun _ _ => shows_render) (fun _ _ _ => render_eq) hvalid'
  constructor
  · intro hsame
    have hshown := (shown_of_render_eq (valid_reread hvalidJ) hvalid' hsame).2
    have hkeep : shown (reread .relative (namesOf joined)).1 (reread .relative _).2 =
        shown .relative (namesOf joined) := (shown_reread (by simp)).2
    rw [hkeep] at hshown
    have hgoal : namesOf joined = namesOf dst := eq_of_shown_relative hvalidJ hvalid' hshown
    rw [hgoal] at hsame
    exact ⟨hstable.mp hsame, hfollowed.symm.trans hgoal⟩
  · rintro ⟨hfits, hgoal⟩
    have hgoal' : namesOf joined = namesOf dst := hfollowed.trans hgoal
    rw [hgoal']
    exact hstable.mpr hfits

/-! ### Below one anchor -/

theorem shown_of_rooted (h : a.rooted = true) (names : List Text) :
    shown a names = a.names ++ names := by
  refine if_neg fun hboth => ?_
  rw [hboth.1] at h
  cases h

section

variable (ha : anchorOf src = anchorOf dst) (hroot : (anchorOf src).rooted = true)

include ha hroot

theorem partsWay_of_anchored :
    partsWay (split (normalize src)) (split (normalize dst)) =
      way dotdot (namesOf src) (namesOf dst) := by
  rw [split_normalize, split_normalize, ← ha, shown_of_rooted hroot, shown_of_rooted hroot,
    ← List.append_assoc, ← List.append_assoc]
  exact partsWay_append (fun _ hs => (valid_anchorOf src).isName hs)
    fun _ hs => (valid_anchorOf dst).isName hs

/-- The way below an anchor leads to the names of the goal. -/
theorem resolve_of_anchored :
    LexicalPath.resolve dot dotdot (anchorOf src).rooted (namesOf src) (wayNames src dst) =
      namesOf dst := by
  have hplain := (valid_anchorOf src).plain_of_rooted hroot
  have hplain' := (valid_anchorOf dst).plain_of_rooted (ha ▸ hroot)
  rw [resolve_wayNames, partsWay_of_anchored ha hroot]
  exact resolve_way_plain dot_ne_dotdot hplain hplain' []

/-- Below an anchor that both paths are read with, the way leads to the goal. -/
theorem leads_anchored_iff (hraw : rawNames src ≠ [])
    (hunc : ¬(rawLead src = 2 ∧ (rawNames src).length = 1)) :
    Leads src dst ↔ Stable (anchorOf dst) (namesOf dst) := by
  obtain ⟨joined, heq, hnames, hlead⟩ := exists_join_relative src dst
  have hanchor : anchorOf joined = anchorOf src := by
    rw [anchorOf, hlead, hnames, readAnchor_append hraw hunc]
    rfl
  have hfollowed := namesOf_followed hnames hanchor
  rw [resolve_of_anchored ha hroot] at hfollowed
  rw [Leads, heq, hanchor, hfollowed, ha, normalize_eq dst]
  exact write_reread_iff (fun _ _ => shows_render) (fun _ _ _ => render_eq) (valid_anchorOf dst)

end

theorem leads_drive_iff {name : Text} (ha : anchorOf src = .drive name)
    (hb : anchorOf dst ≠ .relative) (hraw : rawNames src ≠ [])
    (hunc : ¬(rawLead src = 2 ∧ (rawNames src).length = 1)) :
    Leads src dst ↔ anchorOf dst = .drive name := by
  by_cases hsame : anchorOf dst = .drive name
  · refine iff_of_true ((leads_anchored_iff (ha.trans hsame.symm) ?_ hraw hunc).mpr ?_) hsame
    · rw [ha]
      rfl
    · rw [hsame]
      exact ⟨nofun, nofun⟩
  · refine iff_of_false (fun hleads => ?_) hsame
    obtain ⟨joined, heq, hnames, hlead⟩ := exists_join_relative src dst
    have hanchor : anchorOf joined = .drive name := by
      rw [anchorOf, hlead, hnames, readAnchor_append hraw hunc]
      exact ha
    have hvalid := valid_anchorOf joined
    rw [hanchor] at heq hvalid
    rw [Leads, heq, normalize_eq dst] at hleads
    obtain ⟨hzero, hshown⟩ :=
      shown_of_render_eq (valid_reread hvalid) (valid_anchorOf dst) hleads
    cases hdst : anchorOf dst with
    | relative => exact hb hdst
    | drive other =>
      rw [hdst] at hshown
      obtain ⟨rfl, -⟩ := List.cons.inj hshown
      exact hsame hdst
    | root | unc _ _ =>
      rw [hdst] at hzero
      cases hzero

/-! ### Below a leading slash -/

/-- Two slashes and two names are a share, which no path with another anchor leads to. -/
theorem not_leads_of_share (hlead : rawLead src = 2)
    (hlen : 2 ≤ (rawNames src ++ wayNames src dst).length) (hb : (anchorOf dst).lead ≠ 2) :
    ¬Leads src dst := by
  intro hleads
  obtain ⟨joined, heq, hnames, hjoined⟩ := exists_join_relative src dst
  obtain ⟨server, share, hanchor⟩ : ∃ server share, anchorOf joined = .unc server share := by
    rw [anchorOf, hjoined, hlead, hnames]
    generalize rawNames src ++ wayNames src dst = l at hlen ⊢
    rcases l with _ | ⟨server, _ | ⟨share, _⟩⟩
    · simp at hlen
    · simp at hlen
    · exact ⟨server, share, rfl⟩
  have hvalid := valid_anchorOf joined
  rw [hanchor] at heq hvalid
  rw [Leads, heq, normalize_eq dst] at hleads
  exact hb (shown_of_render_eq (valid_reread hvalid) (valid_anchorOf dst) hleads).1.symm

/-- The names of the goal that are below the root. -/
def goalNames (dst : Text) : List Text := (anchorOf dst).names ++ namesOf dst

theorem valid_goalNames (hb : anchorOf dst = .root ∨ ∃ name, anchorOf dst = .drive name) :
    Valid .root (goalNames dst) where
  segments := (valid_anchorOf dst).segments
  drive := nofun
  resolved := by
    have hvalid := valid_anchorOf dst
    have hrooted : (anchorOf dst).rooted = true := by
      obtain hb | ⟨name, hb⟩ := hb <;> rw [hb] <;> rfl
    refine ⟨0, goalNames dst, rfl, ?_, fun _ => rfl⟩
    refine Plain.append ?_ (hvalid.plain_of_rooted hrooted)
    obtain hb | ⟨name, hb⟩ := hb
    · rw [hb]
      exact nofun
    · rw [hb]
      exact List.forall_mem_singleton.mpr (isDrive_ne_dots (hvalid.drive name hb))

/-- From the root the way leads to all names of the goal. -/
theorem partsWay_of_root (ha : anchorOf src = .root)
    (hb : anchorOf dst = .root ∨ ∃ name, anchorOf dst = .drive name) :
    LexicalPath.resolve dot dotdot true (namesOf src)
        (partsWay (split (normalize src)) (split (normalize dst))) = goalNames dst ∧
      (namesOf src = [] →
        partsWay (split (normalize src)) (split (normalize dst)) = goalNames dst) := by
  have hvalid := valid_anchorOf src
  have hrooted : (anchorOf src).rooted = true := by rw [ha]; rfl
  have hplain := hvalid.plain_of_rooted hrooted
  have hgoal := (valid_goalNames hb).plain_of_rooted rfl
  obtain hb | ⟨name, hb⟩ := hb
  · have hnames : goalNames dst = namesOf dst := by rw [goalNames, hb]; rfl
    rw [partsWay_of_anchored (ha.trans hb.symm) hrooted, hnames]
    refine ⟨resolve_way_plain dot_ne_dotdot hplain (hnames ▸ hgoal) [], fun hnil => ?_⟩
    rw [way_of_head_ne (.inr hnil), hnil]
    rfl
  · have hnames : goalNames dst = name :: namesOf dst := by rw [goalNames, hb]; rfl
    have hsegments : ∀ s ∈ goalNames dst, IsName slash s :=
      fun s hs => ((valid_anchorOf dst).segments s hs).1
    have hway : partsWay (split (normalize src)) (split (normalize dst)) =
        List.replicate (namesOf src).length dotdot ++ goalNames dst := by
      have hfrom : split (normalize src) = [slash] :: namesOf src := by
        rw [split_normalize, ha]
        rfl
      have hto : split (normalize dst) = goalNames dst := by
        rw [split_normalize, hb, hnames]
        rfl
      have hne : [slash] ≠ name := by
        rintro rfl
        exact (hsegments _ (hnames ▸ List.mem_cons_self)).2 List.mem_cons_self
      have hzero : commonLength ([slash] :: namesOf src) (goalNames dst) = 0 := by
        rw [hnames, commonLength, if_neg hne]
      have hslash : ([slash] :: namesOf src).filter (· ≠ [slash]) = namesOf src := by
        rw [List.filter_cons_of_neg (by simp)]
        exact filter_ne_slash fun s hs => hvalid.isName hs
      rw [hfrom, hto, partsWay, hzero, List.drop_zero, List.drop_zero, hslash,
        filter_ne_slash hsegments, List.map_const']
    rw [hway]
    refine ⟨?_, fun hnil => by rw [hnil]; rfl⟩
    have hclimb : LexicalPath.resolve dot dotdot true (namesOf src)
        (List.replicate (namesOf src).length dotdot) = [] := resolve_climb dot_ne_dotdot hplain []
    rw [resolve_append, hclimb, resolve_plain hgoal, List.nil_append]

/-- What is read from the names of the goal behind one slash, or behind more and one name only. -/
theorem read_goalNames {joined : Text} (h : Valid .root (goalNames dst))
    (hnames : rawNames joined = if goalNames dst = [] then [dot] else goalNames dst)
    (hlead : rawLead joined ≠ 0) (hshort : rawLead joined = 2 → (rawNames joined).length ≤ 1) :
    (anchorOf joined, namesOf joined) = reread .root (goalNames dst) := by
  have hplain := h.plain_of_rooted rfl
  cases hgoal : goalNames dst with
  | nil =>
    rw [hgoal, if_pos rfl] at hnames
    have hanchor : anchorOf joined = .root := by
      rw [anchorOf, hnames, readAnchor, if_neg (by decide), if_neg hlead]
    rw [namesOf, hanchor, hnames]
    rfl
  | cons s rest =>
    rw [hgoal, if_neg (List.cons_ne_nil s rest)] at hnames
    have hread : readAnchor (rawLead joined) (rawNames joined) =
        if isDrive s then .drive s else .root := by
      rw [hnames] at hshort ⊢
      cases rest with
      | nil => rw [readAnchor, if_neg hlead]
      | cons s' rest =>
        have htwo : rawLead joined ≠ 2 := fun htwo => by simpa using hshort htwo
        rw [readAnchor, if_neg htwo, if_neg hlead]
    rw [hgoal] at hplain
    rw [reread]
    by_cases hdrive : isDrive s = true
    · rw [if_pos hdrive] at hread ⊢
      exact read_eq hread hnames
        (resolveNames_of_plain fun s' hs' => hplain s' (List.mem_cons_of_mem s hs'))
    · rw [if_neg hdrive] at hread ⊢
      exact read_eq hread hnames (resolveNames_of_plain hplain)

/-- From the root the way leads to the goal unless it is read as a share or as another drive. -/
theorem leads_root_iff (ha : anchorOf src = .root) (hlead : rawLead src ≠ 0)
    (hb : anchorOf dst = .root ∨ ∃ name, anchorOf dst = .drive name)
    (hshort : rawLead src = 2 → (rawNames src ++ wayNames src dst).length ≤ 1) :
    Leads src dst ↔ Stable (anchorOf dst) (namesOf dst) := by
  obtain ⟨joined, heq, hnames, hjoined⟩ := exists_join_relative src dst
  have hgoal := valid_goalNames hb
  obtain ⟨hlands, hstart⟩ := partsWay_of_root ha hb
  have hagain : reread (anchorOf joined) (namesOf joined) = reread .root (goalNames dst) := by
    by_cases hraw : rawNames src = []
    · have hnil : namesOf src = [] := by rw [namesOf, hraw, List.drop_nil]; rfl
      have hway : rawNames joined = if goalNames dst = [] then [dot] else goalNames dst := by
        rw [hnames, hraw, wayNames, hstart hnil, List.nil_append]
      have hread := read_goalNames hgoal hway (hjoined ▸ hlead) fun htwo => by
        rw [hnames]
        exact hshort (hjoined.symm.trans htwo)
      have hanchor : anchorOf joined = _ := (Prod.ext_iff.mp hread).1
      have hbelow : namesOf joined = _ := (Prod.ext_iff.mp hread).2
      rw [hanchor, hbelow, reread_reread]
    · have hone : rawLead src ≠ 2 := fun htwo => by
        have hlen := hshort htwo
        have hsrc := List.length_pos_iff.mpr hraw
        have hway := List.length_pos_iff.mpr (wayNames_ne_nil src dst)
        rw [List.length_append] at hlen
        omega
      have hanchor : anchorOf joined = .root := by
        rw [anchorOf, hjoined, hnames, readAnchor_append hraw fun hboth => hone hboth.1]
        exact ha
      have hfollowed := namesOf_followed hnames (hanchor.trans ha.symm)
      rw [resolve_wayNames, ha] at hfollowed
      rw [hanchor, hfollowed]
      exact congrArg _ hlands
  rw [Leads, heq, hagain, normalize_eq dst]
  obtain hb | ⟨name, hb⟩ := hb
  · have hnames : goalNames dst = namesOf dst := by rw [goalNames, hb]; rfl
    rw [hnames] at hgoal ⊢
    rw [hb]
    exact write_reread_iff (fun _ _ => shows_render) (fun _ _ _ => render_eq) hgoal
  · have hnames : goalNames dst = name :: namesOf dst := by rw [goalNames, hb]; rfl
    have hdrive := (valid_anchorOf dst).drive name hb
    rw [hnames, hb, reread, if_pos hdrive]
    exact iff_of_true rfl ⟨by rintro ⟨⟩, by rintro ⟨⟩⟩

/-! ### When it does -/

theorem anchor_of_written_root {p : Text} (h : writtenOf p = .root) :
    anchorOf p = .root ∨ ∃ name, anchorOf p = .drive name := by
  obtain ⟨s, -, -, hread⟩ | ⟨-, hread⟩ := readAnchor_of_root h
  · exact .inr ⟨s, hread⟩
  · exact .inl hread

theorem lead_of_root {p : Text} (h : anchorOf p = .root) : rawLead p ≠ 0 := by
  intro hzero
  rw [anchorOf, hzero] at h
  cases hnames : rawNames p with
  | nil =>
    rw [hnames] at h
    cases h
  | cons s names =>
    rw [hnames, PathExt.readAnchor_zero_cons] at h
    split_ifs at h

theorem leads_written_root_iff (hsrc : writtenOf src = .root) (hdst : writtenOf dst = .root) :
    Leads src dst ↔ WayFits src dst := by
  have hb := anchor_of_written_root hdst
  have hway := List.length_pos_iff.mpr (wayNames_ne_nil src dst)
  have hlength : (rawNames src ++ wayNames src dst).length = _ := List.length_append
  -- what the way is when only slashes are before it
  have hslashes (hlead : rawLead src = 2) (hraw : rawNames src = []) :
      wayNames src dst = if goalNames dst = [] then [dot] else goalNames dst := by
    have ha : anchorOf src = .root := by rw [anchorOf, hlead, hraw]; rfl
    have hnil : namesOf src = [] := by rw [namesOf, hraw, List.drop_nil]; rfl
    rw [wayNames, (partsWay_of_root ha hb).2 hnil]
  by_cases hshare : rawLead src = 2 ∧ 2 ≤ (rawNames src ++ wayNames src dst).length
  · obtain ⟨hlead, hlen⟩ := hshare
    refine iff_of_false (not_leads_of_share hlead hlen ?_) fun hfits => ?_
    · obtain hb | ⟨name, hb⟩ := hb <;> simp [hb, Anchor.lead]
    · obtain ⟨hraw, hshort⟩ := hfits.slashes hlead hsrc
      have hgoal : (goalNames dst).length ≤ 1 := hshort
      rw [hraw, hslashes hlead hraw, List.nil_append] at hlen
      split_ifs at hlen
      · simp at hlen
      · omega
  · obtain ha | ⟨name, ha⟩ := anchor_of_written_root hsrc
    · rw [leads_root_iff ha (lead_of_root ha) hb fun htwo => by
        by_contra hlen
        exact hshare ⟨htwo, by omega⟩]
      refine ⟨fun hstable => ⟨hstable, ?_, ?_, ?_⟩, WayFits.stable⟩
      · rw [ha]
        rintro ⟨⟩
      · rw [ha]
        rintro _ ⟨⟩
      · intro hlead _
        have hraw : rawNames src = [] := by
          by_contra hne
          have hpos := List.length_pos_iff.mpr hne
          exact hshare ⟨hlead, by omega⟩
        refine ⟨hraw, ?_⟩
        by_contra hlong
        have hgoal : ¬(goalNames dst).length ≤ 1 := hlong
        have hne : goalNames dst ≠ [] := by
          rintro hnil
          rw [hnil] at hgoal
          simp at hgoal
        have hwayNames := hslashes hlead hraw
        rw [if_neg hne] at hwayNames
        have hlengthGoal := congrArg List.length hwayNames
        exact hshare ⟨hlead, by omega⟩
    · have hraw : rawNames src ≠ [] := by
        intro hnil
        rw [anchorOf, hnil, readAnchor] at ha
        split_ifs at ha
      have hpos := List.length_pos_iff.mpr hraw
      have hnone : rawLead src ≠ 2 := fun htwo => hshare ⟨htwo, by omega⟩
      have hrelative : anchorOf dst ≠ .relative := by
        obtain hb | ⟨name, hb⟩ := hb <;> rw [hb] <;> rintro ⟨⟩
      rw [leads_drive_iff ha hrelative hraw fun hboth => hnone hboth.1]
      constructor
      · intro hsame
        refine ⟨?_, ?_, ?_, fun htwo => absurd htwo hnone⟩
        · rw [hsame]
          exact ⟨by rintro ⟨⟩, by rintro ⟨⟩⟩
        · rw [ha]
          rintro ⟨⟩
        · rw [ha, hsame]
          exact fun _ heq => heq
      · exact fun hfits => hfits.drive name ha

/-- Where two paths can be compared, the way between them leads to the goal if it fits. -/
theorem leads_iff (h : Comparable src dst) : Leads src dst ↔ WayFits src dst := by
  obtain ⟨hwritten, -⟩ := h
  by_cases hroot : writtenOf src = .root
  · exact leads_written_root_iff hroot (hwritten.symm.trans hroot)
  have hroot' : writtenOf dst ≠ .root := fun heq => hroot (hwritten.trans heq)
  have ha : anchorOf src = writtenOf src := readAnchor_of_ne_root hroot
  have hb : anchorOf dst = writtenOf src := (readAnchor_of_ne_root hroot').trans hwritten.symm
  by_cases hrelative : writtenOf src = .relative
  · rw [hrelative] at ha hb
    rw [leads_relative_iff ha hb]
    constructor
    · rintro ⟨hstable, hclimb⟩
      refine ⟨hstable, fun _ => hclimb, fun name hname => ?_, fun _ hr => absurd hr hroot⟩
      rw [ha] at hname
      cases hname
    · intro hfits
      exact ⟨hfits.stable, hfits.climb ha⟩
  · have hraw : rawNames src ≠ [] := by
      intro hnil
      rw [writtenOf, hnil, writtenAnchor] at hroot hrelative
      split_ifs at hroot hrelative
      · exact hrelative rfl
      · exact hroot rfl
    have hunc : ¬(rawLead src = 2 ∧ (rawNames src).length = 1) := by
      rintro ⟨htwo, hone⟩
      obtain ⟨s, hs⟩ := List.length_eq_one_iff.mp hone
      rw [writtenOf, htwo, hs] at hroot
      exact hroot rfl
    have hrooted : (anchorOf src).rooted = true := by
      rw [ha]
      cases hanchor : writtenOf src <;> first | exact absurd hanchor hrelative | rfl
    rw [leads_anchored_iff (ha.trans hb.symm) hrooted hraw hunc]
    refine ⟨fun hstable => ⟨hstable, ?_, ?_, fun _ hr => absurd hr hroot⟩, WayFits.stable⟩
    · rw [ha]
      exact fun heq => absurd heq hrelative
    · rw [ha, hb]
      exact fun _ heq => heq

end

/-! ## The laws of paths -/

/-- What is promised about a path, a prefix, and the way between two paths. -/
structure Laws (p pfx src dst : Text) : Prop where
  idempotent : Idempotent p
  confined : Confined p
  starts : StartsRight p pfx
  leads : Comparable src dst → Leads src dst

theorem laws_iff (p pfx src dst : Text) : Laws p pfx src dst ↔
    Stable (anchorOf p) (namesOf p) ∧ ¬HidesDrive p ∧ PrefixFits p pfx ∧
      (Comparable src dst → WayFits src dst) := by
  rw [← idempotent_iff, ← confined_iff, ← startsRight_iff]
  constructor
  · rintro ⟨hidempotent, hconfined, hstarts, hleads⟩
    exact ⟨hidempotent, hconfined, hstarts, fun h => (leads_iff h).mp (hleads h)⟩
  · rintro ⟨hidempotent, hconfined, hstarts, hfits⟩
    exact ⟨hidempotent, hconfined, hstarts, fun h => (leads_iff h).mpr (hfits h)⟩

/-- A name that reads as a drive, a drive behind a slash, a drive as the prefix, and the way from a
dot. -/
theorem laws_broken :
    ¬Idempotent (ascii ['a', '/', '.', '.', '/', 'C', ':']) ∧
      ¬Confined (ascii ['/', 'C', ':', '/', 'a']) ∧
      ¬StartsRight (ascii ['C', ':', '/', 'x']) (ascii ['C', ':', '/']) ∧
      ¬(Comparable (ascii ['.']) (ascii ['a']) → Leads (ascii ['.']) (ascii ['a'])) := by
  refine ⟨fun h => ?_, fun h => ?_, fun h => ?_, fun h => ?_⟩
  · exact absurd h.1 (by decide)
  · exact absurd (h (by decide)).1.1 (by decide +kernel)
  · exact absurd (h.mpr (by decide)) (by decide +kernel)
  · refine absurd (h ⟨by decide, fun _ => by decide +kernel⟩) ?_
    rw [Leads]
    decide

end Kryos.Stdlib.Path
