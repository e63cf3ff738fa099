import Kryos.Lib.LexicalPath
import Kryos.Stdlib.Str

/-!
# Paths

Normalisation of paths and what is built on it. A path is a text; both kinds of slashes separate its
names. It may be anchored: at a leading slash, at a drive letter, or at the server and the share of
a UNC path.

## Main definitions

* `Path.normalize`, `Path.join`, `Path.split`, `Path.relative`, `Path.startsWith` — the module `path`
* `PathExt.normalize` — the module `pathext`
* `Path.anchorOf`, `Path.namesOf` — where a path leads

## Main results

* `Path.normalize_eq`, `PathExt.normalize_eq` — normalisation writes down where the path leads
-/

namespace Kryos.Stdlib

open Str

namespace Path

abbrev slash : UInt8 := 47
abbrev backslash : UInt8 := 92
abbrev colon : UInt8 := 58

abbrev dot : Text := [46]
abbrev dotdot : Text := [46, 46]

/-! ## The module `path` -/

/-- `_to_forward_slashes` -/
def toForwardSlashes (p : Text) : Text := p.map fun c => if c = backslash then slash else c

/-- `_split_path` -/
def splitPath (p : Text) : List Text := LexicalPath.split slash p

/-- The rest of the text that the segments are appended to. -/
def appendSegments (output : Text) : List Text → Text
  | [] => output
  | seg :: segs => segs.foldl (fun out s => out ++ [slash] ++ s) (output ++ seg)

/-- `_join_segments` with the separator `/` -/
def joinSegments (parts : List Text) : Text := appendSegments [] parts

def isLetter (c : UInt8) : Bool := (65 ≤ c && c ≤ 90) || (97 ≤ c && c ≤ 122)

/-- A letter and a colon. -/
def isDrive : Text → Bool
  | [c, d] => d = colon && isLetter c
  | _ => false

def isUnc (normalized : Text) : Bool := normalized.take 2 = [slash, slash]

/-- The anchor that `normalize` finds in the segments, and how many of them make it up. -/
structure Root where
  unc : Text
  drive : Text
  startI : ℕ

def driveRoot (s0 : Text) : Root := if isDrive s0 then ⟨[], s0, 1⟩ else ⟨[], [], 0⟩

def rootOf (normalized : Text) : List Text → Root
  | [] => ⟨[], [], 0⟩
  | [s0] => driveRoot s0
  | s0 :: s1 :: _ =>
    if isUnc normalized then ⟨[slash, slash] ++ s0 ++ [slash] ++ s1, [], 2⟩ else driveRoot s0

/-- One round of the loop over the segments. -/
def segmentStep (anchored : Bool) (result : List Text) (seg : Text) : List Text :=
  if seg = dot ∨ seg = [] then result
  else if seg = dotdot then
    if result ≠ [] ∧ result.getLast? ≠ some dotdot then result.dropLast
    else if anchored then result
    else result ++ [dotdot]
  else result ++ [seg]

def normalize (p : Text) : Text :=
  let normalized := toForwardSlashes p
  if normalized = [] then dot
  else
    let isAbs : Bool := normalized.head? = some slash
    let segments := splitPath normalized
    let root := rootOf normalized segments
    let anchored : Bool := isAbs || root.drive ≠ [] || root.unc ≠ []
    let result := (segments.drop root.startI).foldl (segmentStep anchored) []
    if result = [] then
      if root.unc ≠ [] then root.unc
      else if root.drive ≠ [] then root.drive ++ [slash]
      else if isAbs then [slash]
      else dot
    else
      let output :=
        if root.unc ≠ [] then root.unc ++ [slash]
        else if root.drive ≠ [] then root.drive ++ [slash]
        else if isAbs then [slash]
        else []
      appendSegments output result

def isSeparator (c : Option UInt8) : Bool := c = some slash || c = some backslash

/-- One round of the loop of `join`. -/
def joinStep (result part : Text) : Text :=
  if part = [] then result
  else if result = [] then part
  else if isSeparator result.getLast? || isSeparator part.head? then result ++ part
  else result ++ [slash] ++ part

def join (parts : List Text) : Text :=
  if parts = [] then dot
  else
    let result := parts.foldl joinStep []
    if result = [] then dot else normalize result

def split (p : Text) : List Text :=
  let normalized := toForwardSlashes p
  if normalized = [] then [dot]
  else
    let result := (if normalized.head? = some slash then [[slash]] else []) ++
      (splitPath normalized).filter (· ≠ [])
    if result = [] then [dot] else result

def relative (src dst : Text) : Text :=
  let fromParts := split (normalize src)
  let toParts := split (normalize dst)
  let common := LexicalPath.commonLength fromParts toParts
  let result := ((fromParts.drop common).filter (· ≠ [slash])).map (fun _ => dotdot) ++
    (toParts.drop common).filter (· ≠ [slash])
  if result = [] then dot else joinSegments result

def startsWith (p pfx : Text) : Bool :=
  let np := normalize p
  let npfx := normalize pfx
  if npfx.length > np.length then false
  else if np.take npfx.length ≠ npfx then false
  else if npfx.length = np.length then true
  else if npfx = [slash] then true
  else np[npfx.length]? = some slash

end Path

/-! ## The module `pathext` -/

namespace PathExt

open Path

def isAbsolute : Text → Bool
  | [] => false
  | c :: p =>
    if c = slash ∨ c = backslash then true
    else
      match p with
      | d :: e :: _ => isLetter c && d = colon && (e = slash || e = backslash)
      | _ => false

/-- `normalize_slashes` and `split_on_slash` do what their namesakes of the module `path` do. -/
def normalize (p : Text) : Text :=
  let cleaned := toForwardSlashes p
  let isAbs := isAbsolute cleaned
  let parts := splitPath cleaned
  let root := rootOf cleaned parts
  let stack := (parts.drop root.startI).foldl (segmentStep isAbs) []
  let out := appendSegments
    (if root.unc ≠ [] then root.unc ++ [slash]
      else if root.drive ≠ [] then root.drive ++ [slash]
      else if isAbs then [slash]
      else []) stack
  if out = [] then dot else out

end PathExt

namespace Path

/-! ## Where a path leads -/

inductive Anchor where
  | relative
  | root
  | drive (name : Text)
  | unc (server share : Text)
  deriving DecidableEq, Repr

namespace Anchor

/-- Whether nothing is above the anchor. -/
def rooted : Anchor → Bool
  | relative => false
  | root | drive _ | unc _ _ => true

/-- The names that belong to the anchor. -/
def names : Anchor → List Text
  | relative | root => []
  | drive name => [name]
  | unc server share => [server, share]

/-- The slashes before the first name. -/
def lead : Anchor → ℕ
  | relative | drive _ => 0
  | root => 1
  | unc _ _ => 2

end Anchor

/-- How many slashes a text begins with, up to two. -/
def leadOf : Text → ℕ
  | [] => 0
  | [c] => if c = slash then 1 else 0
  | c :: d :: _ => if c = slash then if d = slash then 2 else 1 else 0

/-- The anchor that `normalize` reads: a drive is looked for behind a leading slash too. -/
def readAnchor (lead : ℕ) : List Text → Anchor
  | [] => if lead = 0 then .relative else .root
  | [s0] => if isDrive s0 then .drive s0 else if lead = 0 then .relative else .root
  | s0 :: s1 :: _ =>
    if lead = 2 then .unc s0 s1
    else if isDrive s0 then .drive s0
    else if lead = 0 then .relative
    else .root

/-- The anchor that a path is written with. -/
def writtenAnchor (lead : ℕ) : List Text → Anchor
  | [] => if lead = 0 then .relative else .root
  | [s0] => if lead ≠ 0 then .root else if isDrive s0 then .drive s0 else .relative
  | s0 :: s1 :: _ =>
    if lead = 2 then .unc s0 s1
    else if lead ≠ 0 then .root
    else if isDrive s0 then .drive s0
    else .relative

/-- The names of a path, anchor and dots included. -/
def rawNames (p : Text) : List Text := splitPath (toForwardSlashes p)

def rawLead (p : Text) : ℕ := leadOf (toForwardSlashes p)

def anchorOf (p : Text) : Anchor := readAnchor (rawLead p) (rawNames p)

def resolveNames (a : Anchor) (names : List Text) : List Text :=
  LexicalPath.resolve dot dotdot a.rooted [] names

/-- The names below the anchor, after resolution. -/
def namesOf (p : Text) : List Text :=
  resolveNames (anchorOf p) ((rawNames p).drop (anchorOf p).names.length)

/-- What stands before the names. -/
def front : Anchor → Text
  | .relative => []
  | .root => [slash]
  | .drive name => name ++ [slash]
  | .unc server share => [slash, slash] ++ server ++ [slash] ++ share ++ [slash]

/-- How `path` writes the place that the names below the anchor lead to. -/
def render (a : Anchor) (names : List Text) : Text :=
  if names = [] then
    match a with
    | .relative => dot
    | .unc server share => [slash, slash] ++ server ++ [slash] ++ share
    | .root | .drive _ => front a
  else front a ++ LexicalPath.join slash names

/-- How `pathext` writes it. -/
def renderExt (a : Anchor) (names : List Text) : Text :=
  if front a ++ LexicalPath.join slash names = [] then dot
  else front a ++ LexicalPath.join slash names

/-! ### Normalisation writes down where the path leads -/

theorem appendSegments_eq (output : Text) (segs : List Text) :
    appendSegments output segs = output ++ LexicalPath.join slash segs := by
  cases segs with
  | nil => exact (List.append_nil _).symm
  | cons seg segs =>
    rw [appendSegments]
    induction segs generalizing output seg with
    | nil => rfl
    | cons s segs ih =>
      rw [List.foldl_cons, ih, LexicalPath.join_cons seg (List.cons_ne_nil s segs)]
      simp only [List.append_assoc, List.singleton_append]

theorem segmentStep_eq {seg : Text} (hseg : seg ≠ []) (anchored : Bool) (result : List Text) :
    segmentStep anchored result seg = LexicalPath.step dot dotdot anchored result seg := by
  rw [segmentStep, LexicalPath.step]
  simp only [hseg, or_false]

theorem foldl_segmentStep {segs : List Text} (h : ∀ s ∈ segs, s ≠ []) (anchored : Bool)
    (result : List Text) : segs.foldl (segmentStep anchored) result =
      LexicalPath.resolve dot dotdot anchored result segs := by
  induction segs generalizing result with
  | nil => rfl
  | cons s segs ih =>
    rw [List.forall_mem_cons] at h
    rw [List.foldl_cons, segmentStep_eq h.1, ih h.2]
    rfl

theorem splitPath_ne_nil {t : Text} {n : ℕ} : ∀ s ∈ (splitPath t).drop n, s ≠ [] :=
  fun _ hs => (LexicalPath.isName_of_mem_split (List.mem_of_mem_drop hs)).1

/-- What `rootOf` finds, and whether there is a leading slash, for each anchor that is read. -/
inductive Found : Anchor → Root → Bool → Prop where
  | relative : Found .relative ⟨[], [], 0⟩ false
  | root : Found .root ⟨[], [], 0⟩ true
  | drive {name : Text} (hdrive : isDrive name = true) (isAbs : Bool) :
      Found (.drive name) ⟨[], name, 1⟩ isAbs
  | unc (server share : Text) :
      Found (.unc server share) ⟨[slash, slash] ++ server ++ [slash] ++ share, [], 2⟩ true

theorem head_iff_lead (t : Text) : t.head? = some slash ↔ leadOf t ≠ 0 := by
  match t with
  | [] => simp [leadOf]
  | [c] | c :: d :: _ =>
    simp only [leadOf, List.head?_cons, Option.some.injEq]; split_ifs <;> simp_all

theorem isUnc_iff_lead (t : Text) : isUnc t = true ↔ leadOf t = 2 := by
  match t with
  | [] => simp [leadOf, isUnc]
  | [c] => simp only [leadOf, isUnc]; split_ifs <;> simp
  | c :: d :: _ => simp only [leadOf, isUnc]; split_ifs <;> simp_all

theorem found_drive (t s0 : Text) :
    Found (if isDrive s0 then .drive s0 else if leadOf t = 0 then .relative else .root)
      (driveRoot s0) (t.head? = some slash) := by
  rw [driveRoot]
  by_cases hdrive : isDrive s0 = true
  · rw [if_pos hdrive, if_pos hdrive]
    exact .drive hdrive _
  · rw [if_neg hdrive, if_neg hdrive]
    by_cases hlead : leadOf t = 0
    · rw [if_pos hlead, decide_eq_false (mt (head_iff_lead t).mp (not_not.mpr hlead))]
      exact .relative
    · rw [if_neg hlead, decide_eq_true ((head_iff_lead t).mpr hlead)]
      exact .root

theorem found (t : Text) (names : List Text) :
    Found (readAnchor (leadOf t) names) (rootOf t names) (t.head? = some slash) := by
  match names with
  | [] =>
    rw [readAnchor, rootOf]
    by_cases hlead : leadOf t = 0
    · rw [if_pos hlead, decide_eq_false (mt (head_iff_lead t).mp (not_not.mpr hlead))]
      exact .relative
    · rw [if_neg hlead, decide_eq_true ((head_iff_lead t).mpr hlead)]
      exact .root
  | [s0] => exact found_drive t s0
  | s0 :: s1 :: _ =>
    rw [readAnchor, rootOf]
    by_cases hunc : leadOf t = 2
    · rw [if_pos hunc, if_pos ((isUnc_iff_lead t).mpr hunc),
        decide_eq_true ((head_iff_lead t).mpr (by omega))]
      exact .unc s0 s1
    · rw [if_neg hunc, if_neg (mt (isUnc_iff_lead t).mp hunc)]
      exact found_drive t s0

theorem isDrive_iff (s : Text) :
    isDrive s = true ↔ ∃ c, s = [c, colon] ∧ isLetter c = true := by
  match s with
  | [] | [_] | [c, d] | _ :: _ :: _ :: _ => simp [isDrive]

theorem isName_of_isDrive {s : Text} (h : isDrive s = true) : LexicalPath.IsName slash s := by
  obtain ⟨c, rfl, hletter⟩ := (isDrive_iff s).mp h
  refine ⟨List.cons_ne_nil _ _, fun hmem => ?_⟩
  obtain rfl | hcolon := List.mem_cons.mp hmem
  · cases hletter
  · exact absurd (List.mem_singleton.mp hcolon) (by decide)

theorem normalize_eq (p : Text) : normalize p = render (anchorOf p) (namesOf p) := by
  rw [normalize, namesOf, anchorOf, rawNames, rawLead]
  generalize toForwardSlashes p = t
  by_cases hnil : t = []
  · subst hnil
    rfl
  have hfound := found t (splitPath t)
  simp only [if_neg hnil, foldl_segmentStep splitPath_ne_nil, appendSegments_eq]
  generalize readAnchor (leadOf t) (splitPath t) = a, rootOf t (splitPath t) = root,
    decide (t.head? = some slash) = isAbs at hfound
  cases hfound with
  | relative | root => simp [render, resolveNames, Anchor.names, Anchor.rooted, front]
  | drive hdrive isAbs =>
    have hname := (isName_of_isDrive hdrive).1
    simp [render, resolveNames, Anchor.names, Anchor.rooted, front, hname]
  | unc server share =>
    simp [render, resolveNames, Anchor.names, Anchor.rooted, front]

end Path

namespace PathExt

open Path

theorem isAbsolute_of_head {t : Text} (h : t.head? = some slash) : isAbsolute t = true := by
  cases t with
  | nil => cases h
  | cons c t =>
    obtain rfl : c = slash := by simpa using h
    simp [isAbsolute]

/-- Without a leading slash only a drive and a slash behind it begin an absolute path. -/
theorem isAbsolute_iff {t : Text} (hback : backslash ∉ t) (hhead : t.head? ≠ some slash) :
    isAbsolute t = true ↔ ∃ name q, isDrive name = true ∧ t = name ++ slash :: q := by
  simp only [isDrive_iff]
  match t with
  | [] => simp [isAbsolute]
  | [c] | [c, d] =>
    simp only [List.mem_cons, not_or, List.head?_cons, ne_eq, Option.some.injEq] at hback hhead
    simp [isAbsolute, hhead, Ne.symm hback.1]
  | c :: d :: e :: q =>
    simp only [List.mem_cons, not_or, List.head?_cons, ne_eq, Option.some.injEq] at hback hhead
    simp [isAbsolute, hhead, Ne.symm hback.1, Ne.symm hback.2.2.1, and_assoc]

theorem not_mem_toForwardSlashes (p : Text) : backslash ∉ toForwardSlashes p := by
  intro h
  obtain ⟨c, -, hc⟩ := List.mem_map.mp h
  split_ifs at hc with heq
  · cases hc
  · exact heq hc

theorem rooted_of_lead {lead : ℕ} (h : lead ≠ 0) (names : List Text) :
    (readAnchor lead names).rooted = true := by
  match names with
  | [] => simp [readAnchor, h, Anchor.rooted]
  | [_] | _ :: _ :: _ => simp only [readAnchor, h, if_false]; split_ifs <;> rfl

theorem readAnchor_zero_cons (s : Text) (names : List Text) :
    readAnchor 0 (s :: names) = if isDrive s then .drive s else .relative := by
  cases names <;> simp [readAnchor]

theorem isAbsolute_of_relative {t : Text} (hback : backslash ∉ t)
    (h : readAnchor (leadOf t) (splitPath t) = .relative) : isAbsolute t = false := by
  by_contra habs
  have habs := Bool.eq_true_of_not_eq_false habs
  by_cases hhead : t.head? = some slash
  · have hrooted := rooted_of_lead ((head_iff_lead t).mp hhead) (splitPath t)
    rw [h] at hrooted
    cases hrooted
  · obtain ⟨name, q, hdrive, rfl⟩ := (isAbsolute_iff hback hhead).mp habs
    have hlead := not_not.mp (mt (head_iff_lead _).mpr hhead)
    have hname := isName_of_isDrive hdrive
    rw [hlead, splitPath, LexicalPath.split_name_sep hname, readAnchor_zero_cons,
      if_pos hdrive] at h
    cases h

theorem isAbsolute_of_drive {t name : Text} (hback : backslash ∉ t)
    (h : readAnchor (leadOf t) (splitPath t) = .drive name) :
    isAbsolute t = true ∨ (splitPath t).drop 1 = [] := by
  by_cases hhead : t.head? = some slash
  · exact .inl (isAbsolute_of_head hhead)
  have hlead := not_not.mp (mt (head_iff_lead _).mpr hhead)
  have hne : t ≠ [] := by
    rintro rfl
    cases h
  obtain ⟨s, -, ⟨-, hsplit⟩ | ⟨q, hq, hsplit⟩⟩ := LexicalPath.split_eq_cons hne hhead
  · exact .inr (congrArg (List.drop 1) hsplit)
  · rw [hlead, splitPath, hsplit, readAnchor_zero_cons] at h
    split_ifs at h with hdrive
    exact .inl ((isAbsolute_iff hback hhead).mpr ⟨s, q, hdrive, hq⟩)

theorem normalize_eq (p : Text) : normalize p = renderExt (anchorOf p) (namesOf p) := by
  have hback := not_mem_toForwardSlashes p
  rw [normalize, namesOf, anchorOf, rawNames, rawLead]
  generalize toForwardSlashes p = t at hback
  have hfound := found t (splitPath t)
  have hrelative := isAbsolute_of_relative hback
  have hdriven {name : Text} : readAnchor (leadOf t) (splitPath t) = .drive name →
      isAbsolute t = true ∨ (splitPath t).drop 1 = [] := isAbsolute_of_drive hback
  have hhead := isAbsolute_of_head (t := t)
  simp only [foldl_segmentStep splitPath_ne_nil, appendSegments_eq, renderExt, resolveNames]
  generalize readAnchor (leadOf t) (splitPath t) = a at hfound hrelative hdriven
  generalize rootOf t (splitPath t) = root at hfound
  generalize habs : decide (t.head? = some slash) = isAbs at hfound
  cases hfound with
  | relative => simp [Anchor.names, Anchor.rooted, front, hrelative rfl]
  | root | unc server share =>
    have htrue := hhead (of_decide_eq_true habs)
    simp [Anchor.names, Anchor.rooted, front, htrue]
  | drive hdrive isAbs =>
    have hname := (isName_of_isDrive hdrive).1
    obtain htrue | hnil := hdriven rfl
    · simp [Anchor.names, Anchor.rooted, front, hname, htrue]
    · simp [Anchor.names, Anchor.rooted, front, hname, hnil, LexicalPath.resolve]

end PathExt

end Kryos.Stdlib
