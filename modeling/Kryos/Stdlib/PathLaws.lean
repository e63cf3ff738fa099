import Mathlib
import Kryos.Stdlib.Path

/-!
# Laws of normalised paths

What is read back from a path that `normalize` has written. The anchor of a path is not always the
one of its normalised text: a name like `C:` reads as a drive where only slashes are before it.

## Main results

* `Path.reread_of_shows` — where a normalised path leads
* `Path.idempotent_iff` — which paths are normalised for good
* `Path.confined_iff` — which anchored paths stay where they are anchored
-/

namespace Kryos.Stdlib.Path

open Str LexicalPath

/-! ## Written paths -/

def IsSegment (s : Text) : Prop := IsName slash s ∧ backslash ∉ s

/-- An anchor and names below it that a path can lead to. -/
structure Valid (a : Anchor) (names : List Text) : Prop where
  segments : ∀ s ∈ a.names ++ names, IsSegment s
  drive : ∀ name, a = .drive name → isDrive name = true
  resolved : Resolved dot dotdot a.rooted names

theorem dot_ne_dotdot : dot ≠ dotdot := by decide

variable {s : Text}

theorem isSegment_of_mem_rawNames {p : Text} (h : s ∈ rawNames p) : IsSegment s :=
  ⟨isName_of_mem_split h,
    fun hback => PathExt.not_mem_toForwardSlashes p (mem_of_mem_split h hback)⟩

/-- The anchor and the names behind it are all names of the path. -/
theorem names_append_drop (l : ℕ) (names : List Text) :
    (readAnchor l names).names ++ names.drop (readAnchor l names).names.length = names := by
  match names with
  | [] | [_] | _ :: _ :: _ => simp only [readAnchor]; split_ifs <;> rfl

variable {names : List Text}

theorem isDrive_of_readAnchor {l : ℕ} {name : Text} (h : readAnchor l names = .drive name) :
    isDrive name = true := by
  match names with
  | [] =>
    simp only [readAnchor] at h
    split_ifs at h
  | [s] =>
    simp only [readAnchor] at h
    split_ifs at h with hdrive
    exact (Anchor.drive.inj h) ▸ hdrive
  | s :: _ :: _ =>
    simp only [readAnchor] at h
    split_ifs at h with hlead hdrive
    exact (Anchor.drive.inj h) ▸ hdrive

theorem resolved_resolveNames (a : Anchor) (names : List Text) :
    Resolved dot dotdot a.rooted (resolveNames a names) :=
  resolved_resolve dot_ne_dotdot names

/-- What a path leads to can be led to. -/
theorem valid_of_read {l : ℕ} (h : ∀ s ∈ names, IsSegment s) :
    Valid (readAnchor l names)
      (resolveNames (readAnchor l names) (names.drop (readAnchor l names).names.length)) where
  segments := by
    intro s hs
    have hall := names_append_drop l names
    obtain hs | hs := List.mem_append.mp hs
    · exact h s (hall ▸ List.mem_append_left _ hs)
    · obtain hnil | hs | rfl := mem_resolve hs
      · cases hnil
      · exact h s (hall ▸ List.mem_append_right _ hs)
      · exact ⟨⟨by decide, by decide⟩, by decide⟩
  drive _ hname := isDrive_of_readAnchor hname
  resolved := resolved_resolveNames _ _

theorem valid_anchorOf (p : Text) : Valid (anchorOf p) (namesOf p) :=
  valid_of_read fun _ hs => isSegment_of_mem_rawNames hs

namespace Valid

variable {a : Anchor} {names : List Text} (h : Valid a names)

include h

theorem isName (hs : s ∈ names) : IsName slash s :=
  (h.segments s (List.mem_append_right _ hs)).1

theorem anchor_isName (hs : s ∈ a.names) : IsName slash s :=
  (h.segments s (List.mem_append_left _ hs)).1

theorem plain_of_rooted (hroot : a.rooted = true) : Plain dot dotdot names := by
  obtain ⟨k, t, rfl, ht, hk⟩ := h.resolved
  rw [hk hroot]
  exact ht

theorem ne_dot (hs : s ∈ names) : s ≠ dot := by
  obtain ⟨k, t, rfl, ht, -⟩ := h.resolved
  obtain hs | hs := List.mem_append.mp hs
  · rw [List.eq_of_mem_replicate hs]
    exact dot_ne_dotdot.symm
  · exact (ht s hs).1

end Valid

/-- The names that are read back from a written path. -/
def shown (a : Anchor) (names : List Text) : List Text :=
  if a = .relative ∧ names = [] then [dot] else a.names ++ names

/-- `t` is written for the anchor and the names. -/
structure Shows (t : Text) (a : Anchor) (names : List Text) : Prop where
  lead : rawLead t = a.lead
  names : rawNames t = shown a names

variable {t : Text}

theorem toForwardSlashes_of_not_mem (h : backslash ∉ t) : toForwardSlashes t = t := by
  have hid : ∀ c ∈ t, (if c = backslash then slash else c) = id c := by
    intro c hc
    have hne : c ≠ backslash := fun heq => h (heq ▸ hc)
    rw [if_neg hne, id]
  exact (List.map_congr_left hid).trans (List.map_id t)

theorem leadOf_of_head (h : t.head? ≠ some slash) : leadOf t = 0 :=
  not_not.mp (mt (head_iff_lead t).mpr h)

theorem leadOf_slash_cons (h : t.head? ≠ some slash) : leadOf (slash :: t) = 1 := by
  cases t with
  | nil => rfl
  | cons c t =>
    have hc : c ≠ slash := by simpa using h
    simp [leadOf, hc]

theorem head_append_of_isName (hs : IsName slash s) (t : Text) : (s ++ t).head? ≠ some slash := by
  cases s with
  | nil => exact absurd rfl hs.1
  | cons c s =>
    have hc : c ≠ slash := fun heq => hs.2 (heq ▸ List.mem_cons_self)
    simpa using hc

theorem head_join (h : ∀ s ∈ names, IsName slash s) :
    (LexicalPath.join slash names).head? ≠ some slash := by
  cases names with
  | nil => simp [LexicalPath.join]
  | cons s names =>
    by_cases hnil : names = []
    · rw [hnil, LexicalPath.join]
      simpa using head_append_of_isName (h s List.mem_cons_self) []
    · rw [join_cons s hnil]
      exact head_append_of_isName (h s List.mem_cons_self) _

theorem not_mem_join (h : ∀ s ∈ names, IsSegment s) : backslash ∉ LexicalPath.join slash names := by
  intro hmem
  obtain hc | ⟨s, hs, hc⟩ := mem_join hmem
  · cases hc
  · exact (h s hs).2 hc

variable {a : Anchor}

theorem not_mem_front (h : ∀ s ∈ a.names, IsSegment s) : backslash ∉ front a := by
  cases a with
  | relative => exact List.not_mem_nil
  | root => decide
  | drive name =>
    have hname := (h name List.mem_cons_self).2
    simp only [front, List.mem_append, hname, false_or]
    decide
  | unc server share =>
    have hserver := (h server List.mem_cons_self).2
    have hshare := (h share (List.mem_cons_of_mem _ List.mem_cons_self)).2
    simp only [front, List.mem_append, hserver, hshare, or_false]
    decide

section Shows

variable {a : Anchor} {names : List Text} (h : Valid a names)

include h

/-- The anchor, a slash where one follows it, and the names. -/
theorem shows_front (hne : ¬(a = .relative ∧ names = [])) :
    Shows (front a ++ LexicalPath.join slash names) a names := by
  have hjoin : ∀ s ∈ names, IsSegment s := fun s hs => h.segments s (List.mem_append_right _ hs)
  have hanchor : ∀ s ∈ a.names, IsSegment s := fun s hs => h.segments s (List.mem_append_left _ hs)
  have hback : backslash ∉ front a ++ LexicalPath.join slash names := fun hmem =>
    (List.mem_append.mp hmem).elim (not_mem_front hanchor) (not_mem_join hjoin)
  have hsplit := split_join fun s hs => h.isName hs
  have hhead := head_join fun s hs => h.isName hs
  constructor
  · rw [rawLead, toForwardSlashes_of_not_mem hback]
    cases a with
    | relative => exact leadOf_of_head hhead
    | root => exact leadOf_slash_cons hhead
    | drive name =>
      rw [front, List.append_assoc]
      exact leadOf_of_head (head_append_of_isName (hanchor name List.mem_cons_self).1 _)
    | unc server share => rfl
  · rw [rawNames, toForwardSlashes_of_not_mem hback, splitPath, shown, if_neg hne]
    cases a with
    | relative => exact hsplit
    | root => exact (split_sep_cons _).trans hsplit
    | drive name =>
      rw [front, List.append_assoc, List.singleton_append,
        split_name_sep (hanchor name List.mem_cons_self).1, hsplit]
      rfl
    | unc server share =>
      have hserver := (hanchor server List.mem_cons_self).1
      have hshare := (hanchor share (List.mem_cons_of_mem _ List.mem_cons_self)).1
      simp only [front, List.append_assoc, List.cons_append, List.nil_append, split_sep_cons,
        split_name_sep hserver, split_name_sep hshare, hsplit]
      rfl

theorem shows_dot (ha : a = .relative) (hnil : names = []) : Shows dot a names := by
  subst ha hnil
  exact ⟨rfl, rfl⟩

theorem shows_renderExt : Shows (renderExt a names) a names := by
  rw [renderExt]
  split_ifs with hnil
  · obtain ⟨hfront, hjoin⟩ := List.append_eq_nil_iff.mp hnil
    have ha : a = .relative := by
      cases a with
      | relative => rfl
      | root | unc server share => cases hfront
      | drive name => simp [front] at hfront
    have hsplit := split_join fun s hs => h.isName hs
    rw [hjoin, split_nil] at hsplit
    exact shows_dot h ha hsplit.symm
  · refine shows_front h ?_
    rintro ⟨rfl, rfl⟩
    exact hnil rfl

theorem shows_render : Shows (render a names) a names := by
  by_cases hnil : names = []
  · have hext := shows_renderExt h
    subst hnil
    cases a with
    | relative | root => exact ⟨rfl, rfl⟩
    | drive name =>
      have hfront := shows_front h (by simp)
      rwa [LexicalPath.join, List.append_nil] at hfront
    | unc server share =>
      -- no slash stands behind the share
      have hserver := h.segments server (by simp [Anchor.names])
      have hshare := h.segments share (by simp [Anchor.names])
      have hback : backslash ∉ [slash, slash] ++ server ++ [slash] ++ share := by
        simp only [List.mem_append, hserver.2, hshare.2, or_false]
        decide
      constructor
      · rw [rawLead, render, if_pos rfl, toForwardSlashes_of_not_mem hback]
        rfl
      · rw [rawNames, render, if_pos rfl, toForwardSlashes_of_not_mem hback, splitPath]
        simp only [List.append_assoc, List.cons_append, List.nil_append, split_sep_cons,
          split_name_sep hserver.1, split_name hshare.1]
        rfl
  · have hrender : render a names = front a ++ LexicalPath.join slash names := if_neg hnil
    rw [hrender]
    exact shows_front h fun hboth => hnil hboth.2

end Shows

/-! ## Reading a written path again -/

/-- What is read from the text that is written for the anchor and the names. -/
def reread : Anchor → List Text → Anchor × List Text
  | .relative, s :: names => if isDrive s then (.drive s, names) else (.relative, s :: names)
  | .root, s :: names => if isDrive s then (.drive s, names) else (.root, s :: names)
  | a, names => (a, names)

theorem isDrive_ne_dots (h : isDrive s = true) : s ≠ dot ∧ s ≠ dotdot := by
  constructor <;> rintro rfl <;> cases h

theorem resolved_of_drive_cons {rooted : Bool} (hs : isDrive s = true)
    (h : Resolved dot dotdot rooted (s :: names)) : Plain dot dotdot names := by
  obtain ⟨k, t, heq, ht, -⟩ := h
  cases k with
  | zero =>
    obtain rfl : s :: names = t := heq
    exact fun s' hs' => ht s' (List.mem_cons_of_mem s hs')
  | succ k =>
    rw [List.replicate_succ, List.cons_append, List.cons.injEq] at heq
    exact absurd heq.1 (isDrive_ne_dots hs).2

theorem resolveNames_of_plain (h : Plain dot dotdot names) : resolveNames a names = names :=
  resolve_plain h []

theorem resolveNames_of_resolved (h : Resolved dot dotdot a.rooted names) :
    resolveNames a names = names :=
  resolve_resolved dot_ne_dotdot h

theorem readAnchor_one_cons (s : Text) (names : List Text) :
    readAnchor 1 (s :: names) = if isDrive s then .drive s else .root := by
  cases names <;> simp [readAnchor]

theorem read_eq (ha : readAnchor (rawLead t) (rawNames t) = a)
    (hnames : rawNames t = a.names ++ names) (hresolved : resolveNames a names = names) :
    (anchorOf t, namesOf t) = (a, names) := by
  have hanchor : anchorOf t = a := ha
  rw [namesOf, hanchor, hnames, List.drop_left, hresolved]

/-- A first name that looks like a drive is read as one. -/
theorem read_cons {rooted : Bool} (hnil : a.names = [])
    (hread : readAnchor (rawLead t) (rawNames t) = if isDrive s then .drive s else a)
    (hnames : rawNames t = s :: names) (h : Resolved dot dotdot rooted (s :: names))
    (hresolved : resolveNames a (s :: names) = s :: names) :
    (anchorOf t, namesOf t) = if isDrive s then (.drive s, names) else (a, s :: names) := by
  split_ifs at hread ⊢ with hdrive
  · exact read_eq hread hnames (resolveNames_of_plain (resolved_of_drive_cons hdrive h))
  · exact read_eq hread (by rw [hnames, hnil, List.nil_append]) hresolved

theorem reread_of_shows (h : Valid a names) (hs : Shows t a names) :
    (anchorOf t, namesOf t) = reread a names := by
  have hlead := hs.lead
  have hshown := hs.names
  have hresolved := resolveNames_of_resolved h.resolved
  cases a with
  | relative =>
    cases names with
    | nil =>
      rw [namesOf, anchorOf, hlead, hshown]
      rfl
    | cons s names =>
      refine read_cons rfl ?_ hshown h.resolved hresolved
      rw [hlead, hshown]
      exact PathExt.readAnchor_zero_cons s names
  | root =>
    cases names with
    | nil =>
      rw [namesOf, anchorOf, hlead, hshown]
      rfl
    | cons s names =>
      refine read_cons rfl ?_ hshown h.resolved hresolved
      rw [hlead, hshown]
      exact readAnchor_one_cons s names
  | drive name =>
    refine read_eq ?_ hshown hresolved
    rw [hlead, hshown]
    exact (PathExt.readAnchor_zero_cons name names).trans (if_pos (h.drive name rfl))
  | unc server share =>
    refine read_eq ?_ hshown hresolved
    rw [hlead, hshown]
    rfl

/-- What is read again can be led to, too. -/
theorem valid_reread (h : Valid a names) : Valid (reread a names).1 (reread a names).2 := by
  have hread := reread_of_shows h (shows_render h)
  have hvalid := valid_anchorOf (render a names)
  rwa [← hread]

/-! ## Normalising twice -/

/-- No name that the anchor leaves alone looks like one. -/
def Stable (a : Anchor) (names : List Text) : Prop :=
  (a = .root → ∀ s ∈ names.head?, isDrive s = false) ∧
    (a = .relative → ∀ s, names = [s] → isDrive s = false)

/-- Both modules leave the normalised path as it is. -/
def Idempotent (p : Text) : Prop :=
  normalize (normalize p) = normalize p ∧
    PathExt.normalize (PathExt.normalize p) = PathExt.normalize p

theorem join_ne_nil (h : ∀ s ∈ names, IsName slash s) (hne : names ≠ []) :
    LexicalPath.join slash names ≠ [] := by
  intro hnil
  have hsplit := split_join h
  rw [hnil, split_nil] at hsplit
  exact hne hsplit.symm

section

variable {write : Anchor → List Text → Text} {a : Anchor} {names : List Text}

theorem render_eq (h : names = [] → ∃ name, a = .drive name) :
    render a names = front a ++ LexicalPath.join slash names := by
  by_cases hnil : names = []
  · obtain ⟨name, rfl⟩ := h hnil
    subst hnil
    exact (List.append_nil _).symm
  · exact if_neg hnil

theorem renderExt_eq (hvalid : Valid a names) (h : names = [] → ∃ name, a = .drive name) :
    renderExt a names = front a ++ LexicalPath.join slash names := by
  refine if_neg fun hnil => ?_
  obtain ⟨hfront, hjoin⟩ := List.append_eq_nil_iff.mp hnil
  by_cases hnames : names = []
  · obtain ⟨name, rfl⟩ := h hnames
    simp [front] at hfront
  · exact join_ne_nil (fun _ hs => hvalid.isName hs) hnames hjoin

/-- What is read back is written again as it is if it is stable. -/
theorem write_reread_iff (hshows : ∀ a names, Valid a names → Shows (write a names) a names)
    (hwrite : ∀ a names, Valid a names → (names = [] → ∃ name, a = .drive name) →
      write a names = front a ++ LexicalPath.join slash names) (h : Valid a names) :
    write (reread a names).1 (reread a names).2 = write a names ↔ Stable a names := by
  have hvalid := valid_reread h
  have hlead := (hshows a names h).lead
  have hagain := (hshows _ _ hvalid).lead
  cases a with
  | drive name | unc server share => exact iff_of_true rfl ⟨by rintro ⟨⟩, by rintro ⟨⟩⟩
  | relative =>
    cases names with
    | nil => exact iff_of_true rfl ⟨by rintro ⟨⟩, by rintro - _ ⟨⟩⟩
    | cons s names =>
      by_cases hdrive : isDrive s = true
      · rw [reread, if_pos hdrive] at hvalid ⊢
        by_cases hnil : names = []
        · subst hnil
          refine iff_of_false (fun heq => ?_) fun hstable => ?_
          · rw [hwrite _ _ hvalid fun _ => ⟨s, rfl⟩, hwrite _ _ h (by rintro ⟨⟩)] at heq
            simp [front, LexicalPath.join] at heq
          · rw [hstable.2 rfl s rfl] at hdrive
            cases hdrive
        · refine iff_of_true ?_ ⟨by rintro ⟨⟩, fun _ s' hs' => absurd (List.cons.inj hs').2 hnil⟩
          rw [hwrite _ _ hvalid fun _ => ⟨s, rfl⟩, hwrite _ _ h (by rintro ⟨⟩), join_cons s hnil]
          simp [front]
      · rw [reread, if_neg hdrive]
        refine iff_of_true rfl ⟨by rintro ⟨⟩, fun _ s' hs' => ?_⟩
        rw [← (List.cons.inj hs').1]
        exact Bool.eq_false_of_not_eq_true hdrive
  | root =>
    cases names with
    | nil => exact iff_of_true rfl ⟨by rintro - _ ⟨⟩, by rintro ⟨⟩⟩
    | cons s names =>
      by_cases hdrive : isDrive s = true
      · rw [reread, if_pos hdrive] at hagain ⊢
        refine iff_of_false (fun heq => ?_) fun hstable => ?_
        · rw [heq, hlead] at hagain
          cases hagain
        · rw [hstable.1 rfl s rfl] at hdrive
          cases hdrive
      · rw [reread, if_neg hdrive]
        refine iff_of_true rfl ⟨fun _ s' hs' => ?_, by rintro ⟨⟩⟩
        rw [← Option.some.inj hs']
        exact Bool.eq_false_of_not_eq_true hdrive

end

theorem normalize_normalize (p : Text) : normalize (normalize p) =
    render (reread (anchorOf p) (namesOf p)).1 (reread (anchorOf p) (namesOf p)).2 := by
  have hread := reread_of_shows (valid_anchorOf p) (shows_render (valid_anchorOf p))
  rw [normalize_eq (normalize p), normalize_eq p, ← hread]

theorem normalizeExt_normalizeExt (p : Text) : PathExt.normalize (PathExt.normalize p) =
    renderExt (reread (anchorOf p) (namesOf p)).1 (reread (anchorOf p) (namesOf p)).2 := by
  have hread := reread_of_shows (valid_anchorOf p) (shows_renderExt (valid_anchorOf p))
  rw [PathExt.normalize_eq (PathExt.normalize p), PathExt.normalize_eq p, ← hread]

/-- A path is normalised for good unless a name that is not its drive ends up where one is read. -/
theorem idempotent_iff (p : Text) : Idempotent p ↔ Stable (anchorOf p) (namesOf p) := by
  have hvalid := valid_anchorOf p
  have hpath := write_reread_iff (fun _ _ => shows_render) (fun _ _ _ => render_eq) hvalid
  have hext := write_reread_iff (fun _ _ => shows_renderExt) (fun _ _ => renderExt_eq) hvalid
  rw [Idempotent, normalize_normalize, normalizeExt_normalizeExt, PathExt.normalize_eq,
    normalize_eq, hpath, hext, and_self]

/-! ## Anchored paths -/

/-- The anchor that a text is written with. -/
def writtenOf (t : Text) : Anchor := writtenAnchor (rawLead t) (rawNames t)

/-- What is written below the anchor. -/
def below (t : Text) : List Text := (rawNames t).drop (writtenOf t).names.length

/-- `t` is anchored where `p` is, and nothing in it goes up. -/
def StaysAt (p t : Text) : Prop := writtenOf t = writtenOf p ∧ dotdot ∉ below t

/-- Normalisation keeps the path where it is anchored, if it is. -/
def Confined (p : Text) : Prop :=
  writtenOf p ≠ .relative → StaysAt p (normalize p) ∧ StaysAt p (PathExt.normalize p)

/-- The first name behind a leading slash looks like a drive. -/
def HidesDrive (p : Text) : Prop :=
  writtenOf p = .root ∧ ∃ s ∈ (rawNames p).head?, isDrive s = true

theorem readAnchor_of_ne_root {l : ℕ} (h : writtenAnchor l names ≠ .root) :
    readAnchor l names = writtenAnchor l names := by
  match names with
  | [] => rfl
  | [_] | _ :: _ :: _ => simp only [writtenAnchor, readAnchor] at h ⊢; split_ifs at h ⊢ <;> simp_all

/-- Behind a leading slash a drive is read that was not written as one. -/
theorem readAnchor_of_root {l : ℕ} (h : writtenAnchor l names = .root) :
    (∃ s ∈ names.head?, isDrive s = true ∧ readAnchor l names = .drive s) ∨
      (∀ s ∈ names.head?, isDrive s = false) ∧ readAnchor l names = .root := by
  match names with
  | [] => exact .inr ⟨nofun, h⟩
  | [_] | _ :: _ :: _ => simp only [writtenAnchor, readAnchor] at h ⊢; split_ifs at h ⊢ <;> simp_all

/-- An anchor stays written where it is written. -/
theorem written_of_shows (h : Valid a names) (hs : Shows t a names) (hroot : a ≠ .relative) :
    writtenOf t = a ∧ below t = names := by
  have hanchor : writtenOf t = a := by
    rw [writtenOf, hs.lead, hs.names]
    cases a with
    | relative => exact absurd rfl hroot
    | root =>
      match names with
      | [] | [_] | _ :: _ :: _ => rfl
    | drive name =>
      have hdrive := h.drive name rfl
      cases names <;> simp [writtenAnchor, shown, Anchor.names, Anchor.lead, hdrive]
    | unc server share => rfl
  have hshown : shown a names = a.names ++ names := if_neg fun hboth => hroot hboth.1
  rw [below, hanchor, hs.names, hshown, List.drop_left]
  exact ⟨rfl, rfl⟩

theorem staysAt_of_shows {p : Text} (h : Valid a names) (hs : Shows t a names)
    (ha : a = writtenOf p) (hroot : a ≠ .relative) : StaysAt p t := by
  obtain ⟨hwritten, hbelow⟩ := written_of_shows h hs hroot
  refine ⟨hwritten.trans ha, fun hmem => ?_⟩
  have hrooted : a.rooted = true := by cases a <;> first | exact absurd rfl hroot | rfl
  rw [hbelow] at hmem
  exact (h.plain_of_rooted hrooted dotdot hmem).2 rfl

/-- A path leaves its anchor exactly if it hides a drive behind its leading slash. -/
theorem confined_iff (p : Text) : Confined p ↔ ¬HidesDrive p := by
  have hvalid := valid_anchorOf p
  have hshows := shows_render hvalid
  have hshowsExt := shows_renderExt hvalid
  rw [Confined, PathExt.normalize_eq, normalize_eq]
  by_cases hroot : writtenOf p = .root
  · obtain ⟨s, hs, hdrive, hread⟩ | ⟨hnone, hread⟩ := readAnchor_of_root hroot
    · refine iff_of_false (fun hconfined => ?_) (not_not.mpr ⟨hroot, s, hs, hdrive⟩)
      have hstays := (hconfined (by rw [hroot]; nofun)).1.1
      have hanchor : anchorOf p = .drive s := hread
      rw [hanchor] at hvalid hshows hstays
      rw [(written_of_shows hvalid hshows nofun).1, hroot] at hstays
      cases hstays
    · have hanchor : anchorOf p = writtenOf p := hread.trans hroot.symm
      have hne : anchorOf p ≠ .relative := by rw [hanchor, hroot]; nofun
      refine iff_of_true (fun _ => ⟨?_, ?_⟩) fun ⟨_, s, hs, hdrive⟩ => ?_
      · exact staysAt_of_shows hvalid hshows hanchor hne
      · exact staysAt_of_shows hvalid hshowsExt hanchor hne
      · rw [hnone s hs] at hdrive
        cases hdrive
  · have hanchor : anchorOf p = writtenOf p := readAnchor_of_ne_root hroot
    refine iff_of_true (fun hne => ?_) fun hhides => hroot hhides.1
    rw [← hanchor] at hne
    exact ⟨staysAt_of_shows hvalid hshows hanchor hne,
      staysAt_of_shows hvalid hshowsExt hanchor hne⟩

end Kryos.Stdlib.Path
