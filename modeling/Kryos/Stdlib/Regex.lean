import Kryos.Lib.Segments

/-!
# Regular expressions in the standard library

The wrappers of `std.re` call a native matcher through byte offsets. `find_all`, `split` and
`replace_all` each repeat the same scan: find a match at or after a position, go on behind it, and
one byte further if the match was empty. A position inside a character is rounded up.

A text is a list of bytes. The pointers that the native functions get are never null.

## Main results

* `Re.Scan` — the matches that a scan meets, in order
* `Re.agree_iff` — the three loops and `replace` agree, for the empty text only if the pattern does
  not match it
-/

namespace Kryos.Stdlib.Re

open Segments

abbrev Text := List UInt8

/-! ## The native matcher -/

/-- A compiled pattern: what its functions return, and what they promise. Positions are bytes. -/
structure Matcher where
  find : Text → Option (ℕ × ℕ)
  findAt : Text → ℕ → Option (ℕ × ℕ)
  /-- the groups of the pattern, the whole match not counted -/
  captureCount : ℕ
  /-- the groups of the first match at or after a position; the group 0 is the match -/
  capturesAt : Text → ℕ → Option (List (Option (ℕ × ℕ)))
  findAt_range : ∀ {text s a b}, findAt text s = some (a, b) → s ≤ a ∧ a ≤ b ∧ b ≤ text.length
  find_eq_findAt : ∀ text, find text = findAt text 0
  capturesAt_head : ∀ text s,
    (capturesAt text s).map List.head? = (findAt text s).map fun m => some (some m)
  capturesAt_length : ∀ {text s groups}, capturesAt text s = some groups →
    groups.length = captureCount + 1
  capturesAt_range : ∀ {text s groups a b}, capturesAt text s = some groups →
    some (a, b) ∈ groups → a ≤ b ∧ b ≤ text.length

/-- `str::is_char_boundary` -/
def isCharBoundary (text : Text) (s : ℕ) : Bool :=
  s == 0 || match text[s]? with
    | some b => decide (b < 0x80 ∨ 0xC0 ≤ b)
    | none => s == text.length

/-- `while s < text.len() && !text.is_char_boundary(s)` -/
def roundUp (text : Text) (s : ℕ) : ℕ :=
  if s < text.length ∧ isCharBoundary text s = false then roundUp text (s + 1) else s
termination_by text.length - s

/-- The start and the length of the match. -/
def kryosRegexFindAt (re : Matcher) (text : Text) (start : ℕ) : Option (ℕ × ℕ) :=
  if start > text.length then none
  else (re.findAt text (roundUp text start)).map fun m => (m.1, m.2 - m.1)

def kryosRegexFind (re : Matcher) (text : Text) : Option (ℕ × ℕ) :=
  (re.find text).map fun m => (m.1, m.2 - m.1)

inductive CaptureReply where
  /-- `-1`, for an index out of range -/
  | error
  /-- `0` -/
  | noMatch
  /-- `1`, with the start and the length of the group; a group that took no part has none -/
  | group (range : Option (ℕ × ℕ))

def kryosRegexCaptureAt (re : Matcher) (text : Text) (start groupIdx : ℕ) : CaptureReply :=
  if start > text.length then .noMatch
  else
    match re.capturesAt text (roundUp text start) with
    | none => .noMatch
    | some caps =>
      match caps[groupIdx]? with
      | none => .error
      | some range => .group (range.map fun m => (m.1, m.2 - m.1))

/-! ## The wrappers -/

inductive Failure where
  | thrown (message : String)
  | panicked (message : String)
  /-- a loop of the model was cut off -/
  | outOfFuel
  deriving DecidableEq, Repr

structure Match where
  text : Text
  start : ℕ
  stop : ℕ
  found : Bool
  deriving DecidableEq, Repr

structure Captures where
  groups : List Text
  count : ℕ
  found : Bool
  deriving DecidableEq, Repr

structure Regex where
  handle : Matcher
  pattern : String
  dropped : Bool

/-- `substr`, which panics out of bounds -/
def substr (s : Text) (a b : ℕ) : Except Failure Text :=
  if a ≤ b ∧ b ≤ s.length then .ok (slice s a b)
  else .error (.panicked ("string slice out of bounds: [" ++ toString a ++ ".." ++ toString b ++
    ") but length is " ++ toString s.length))

/-- What `find` and `find_at` make of a reply of the native side. -/
def toMatch (text : Text) : Option (ℕ × ℕ) → Except Failure Match
  | none => .ok ⟨[], 0, 0, false⟩
  | some (start, length) =>
    match substr text start (start + length) with
    | .error e => .error e
    | .ok matched => .ok ⟨matched, start, start + length, true⟩

namespace Regex

def find (re : Regex) (text : Text) : Except Failure Match :=
  if re.dropped then .error (.thrown "re error: find on dropped regex")
  else toMatch text (kryosRegexFind re.handle text)

def findAt (re : Regex) (text : Text) (pos : ℕ) : Except Failure Match :=
  if re.dropped then .error (.thrown "re error: find_at on dropped regex")
  else toMatch text (kryosRegexFindAt re.handle text pos)

/-- The loop over the group indices. -/
def captureLoop (re : Regex) (text : Text) (pos : ℕ) :
    List ℕ → List Text → Except Failure Captures
  | [], groups => .ok ⟨groups, re.handle.captureCount, true⟩
  | gi :: rest, groups =>
    match kryosRegexCaptureAt re.handle text pos gi with
    | .error =>
      .error (.thrown ("re error: captures failed for pattern: " ++ re.pattern))
    | .noMatch => .ok ⟨[], 0, false⟩
    | .group none => captureLoop re text pos rest (groups ++ [[]])
    | .group (some (s, l)) =>
      match substr text s (s + l) with
      | .error e => .error e
      | .ok g => captureLoop re text pos rest (groups ++ [g])

def capturesAt (re : Regex) (text : Text) (pos : ℕ) : Except Failure Captures :=
  if re.dropped then .error (.thrown "re error: captures_at on dropped regex")
  else captureLoop re text pos (List.range (re.handle.captureCount + 1)) []

def findAllLoop (re : Regex) (text : Text) :
    ℕ → ℕ → List Match → Except Failure (List Match)
  | 0, _, _ => .error .outOfFuel
  | n + 1, pos, results =>
    if pos ≤ text.length then
      match re.findAt text pos with
      | .error e => .error e
      | .ok m =>
        if m.found then
          findAllLoop re text n (if m.stop = m.start then m.stop + 1 else m.stop) (results ++ [m])
        else findAllLoop re text n (text.length + 1) results
    else .ok results

def findAll (re : Regex) (text : Text) : Except Failure (List Match) :=
  if re.dropped then .error (.thrown "re error: find_all on dropped regex")
  else findAllLoop re text (text.length + 2) 0 []

end Regex

/-! ## Expanding a replacement -/

def isDigit (b : UInt8) : Bool := 48 ≤ b && b ≤ 57

/-- The index that the longest run of digits names among `count` groups, and what is left; `idx` is
the index so far. -/
def groupDigits (count : ℕ) : List UInt8 → ℕ → ℕ × List UInt8
  | [], idx => (idx, [])
  | d :: rest, idx =>
    if isDigit d ∧ idx * 10 + (d.toNat - 48) < count then
      groupDigits count rest (idx * 10 + (d.toNat - 48))
    else (idx, d :: rest)

theorem length_groupDigits_le (count : ℕ) (bs : List UInt8) (idx : ℕ) :
    (groupDigits count bs idx).2.length ≤ bs.length := by
  induction bs generalizing idx with
  | nil => exact Nat.le_refl 0
  | cons d rest ih =>
    rw [groupDigits]
    split
    · exact Nat.le_succ_of_le (ih _)
    · exact Nat.le_refl _

/-- The `$` sign. -/
def dollar : UInt8 := 36

/-- `_expand_groups` -/
def expandGroups (groups : List Text) : List UInt8 → Text
  | [] => []
  | [ch] => [ch]
  | ch :: nxt :: rest =>
    if ch = dollar then
      if nxt = dollar then dollar :: expandGroups groups rest
      else if isDigit nxt then
        -- The first digit decides whether any of the run names a group.
        if nxt.toNat - 48 < groups.length then
          let run := groupDigits groups.length rest (nxt.toNat - 48)
          groups.getD run.1 [] ++ expandGroups groups run.2
        else dollar :: expandGroups groups (nxt :: rest)
      else ch :: expandGroups groups (nxt :: rest)
    else ch :: expandGroups groups (nxt :: rest)
termination_by bs => bs.length
decreasing_by
  · exact Nat.lt_succ_of_lt (Nat.lt_succ_self _)
  · have hle := length_groupDigits_le groups.length rest (nxt.toNat - 48)
    simp only [List.length_cons]
    omega
  all_goals exact Nat.lt_succ_self _

/-! ## Splitting and replacing -/

namespace Regex

def splitLoop (re : Regex) (text : Text) :
    ℕ → ℕ → ℕ → Bool → List Text → Except Failure (List Text)
  | 0, _, _, _, _ => .error .outOfFuel
  | n + 1, pos, last, lastConsumedMatch, parts =>
    if pos ≤ text.length then
      match re.findAt text pos with
      | .error e => .error e
      | .ok m =>
        if m.found then
          match substr text last m.start with
          | .error e => .error e
          | .ok part =>
            splitLoop re text n (if m.stop = m.start then m.stop + 1 else m.stop) m.stop true
              (parts ++ [part])
        else
          match substr text last text.length with
          | .error e => .error e
          | .ok part =>
            splitLoop re text n (text.length + 1) text.length false (parts ++ [part])
    else if lastConsumedMatch ∧ text.length > 0 then .ok (parts ++ [[]])
    else .ok parts

def split (re : Regex) (text : Text) : Except Failure (List Text) :=
  if re.dropped then .error (.thrown "re error: split on dropped regex")
  else splitLoop re text (text.length + 2) 0 0 false []

/-- The groups that the references of a replacement name, for the match found from `pos` on. -/
def groupsAt (re : Regex) (text : Text) (pos : ℕ) (m : Match) : Except Failure (List Text) :=
  if re.handle.captureCount > 0 then
    match re.capturesAt text pos with
    | .error e => .error e
    | .ok caps => .ok caps.groups
  else .ok [m.text]

def replaceLoop (re : Regex) (text replacement : Text) :
    ℕ → ℕ → ℕ → Text → Except Failure Text
  | 0, _, _, _ => .error .outOfFuel
  | n + 1, pos, last, sb =>
    if pos ≤ text.length then
      match re.findAt text pos with
      | .error e => .error e
      | .ok m =>
        if m.found then
          match substr text last m.start with
          | .error e => .error e
          | .ok before =>
            match re.groupsAt text pos m with
            | .error e => .error e
            | .ok groups =>
              let sb := sb ++ before ++ expandGroups groups replacement
              if m.stop = m.start then
                if m.stop < text.length then
                  match substr text m.stop (m.stop + 1) with
                  | .error e => .error e
                  | .ok ch =>
                    replaceLoop re text replacement n (m.stop + 1) (m.stop + 1) (sb ++ ch)
                else replaceLoop re text replacement n (m.stop + 1) (m.stop + 1) sb
              else replaceLoop re text replacement n m.stop m.stop sb
        else replaceLoop re text replacement n (text.length + 1) last sb
    else if last < text.length then
      match substr text last text.length with
      | .error e => .error e
      | .ok rest => .ok (sb ++ rest)
    else .ok sb

def replaceAll (re : Regex) (text replacement : Text) : Except Failure Text :=
  if re.dropped then .error (.thrown "re error: replace_all on dropped regex")
  else replaceLoop re text replacement (text.length + 2) 0 0 []

/-- The text with one segment replaced. -/
def spliceMatch (text : Text) (m : Match) (filling : Text) : Except Failure Text :=
  match substr text 0 m.start with
  | .error e => .error e
  | .ok before =>
    match substr text m.stop text.length with
    | .error e => .error e
    | .ok after => .ok (before ++ filling ++ after)

def replace (re : Regex) (text replacement : Text) : Except Failure Text :=
  if re.dropped then .error (.thrown "re error: replace on dropped regex")
  else if re.handle.captureCount > 0 then
    match re.capturesAt text 0 with
    | .error e => .error e
    | .ok caps =>
      if caps.found then
        match re.findAt text 0 with
        | .error e => .error e
        | .ok m => spliceMatch text m (expandGroups caps.groups replacement)
      else .ok text
  else
    match re.find text with
    | .error e => .error e
    | .ok m =>
      if m.found then spliceMatch text m (expandGroups [m.text] replacement)
      else .ok text

end Regex


/-! ## What the native side finds -/

theorem le_roundUp (text : Text) (s : ℕ) : s ≤ roundUp text s := by
  induction s using roundUp.induct text with
  | case1 s h ih =>
    rw [roundUp, if_pos h]
    exact (Nat.le_succ s).trans ih
  | case2 s h => rw [roundUp, if_neg h]

theorem roundUp_zero (text : Text) : roundUp text 0 = 0 := by
  rw [roundUp, if_neg]
  rintro ⟨-, h⟩
  cases h

theorem substr_ok {s : Text} {a b : ℕ} (hab : a ≤ b) (hb : b ≤ s.length) :
    substr s a b = .ok (slice s a b) := if_pos ⟨hab, hb⟩

/-- The match lies at or behind `pos`, and holds the text between its ends. -/
structure Hit (text : Text) (pos : ℕ) (m : Match) : Prop where
  le_start : pos ≤ m.start
  start_le : m.start ≤ m.stop
  stop_le : m.stop ≤ text.length
  text_eq : m.text = slice text m.start m.stop

theorem toMatch_of_range {text : Text} {a b : ℕ} (hab : a ≤ b) (hb : b ≤ text.length) :
    toMatch text (some (a, b - a)) = .ok ⟨slice text a b, a, b, true⟩ := by
  rw [toMatch, Nat.add_sub_cancel' hab, substr_ok hab hb]

section Live

variable {handle : Matcher} {pattern : String} {text : Text} {pos : ℕ} {m : Match}

/-- `find_at` on a live regex: nothing, or a hit. -/
theorem findAt_cases (handle : Matcher) (pattern : String) (hpos : pos ≤ text.length) :
    (handle.findAt text (roundUp text pos) = none ∧
        Regex.findAt ⟨handle, pattern, false⟩ text pos = .ok ⟨[], 0, 0, false⟩) ∨
      ∃ m, handle.findAt text (roundUp text pos) = some (m.start, m.stop) ∧
        Regex.findAt ⟨handle, pattern, false⟩ text pos = .ok m ∧ m.found = true ∧
        Hit text pos m := by
  have heq : Regex.findAt ⟨handle, pattern, false⟩ text pos = toMatch text
      ((handle.findAt text (roundUp text pos)).map fun m => (m.1, m.2 - m.1)) := by
    rw [Regex.findAt, if_neg Bool.false_ne_true, kryosRegexFindAt, if_neg (by omega)]
  rcases hfind : handle.findAt text (roundUp text pos) with _ | ⟨a, b⟩
  · refine .inl ⟨rfl, ?_⟩
    rw [heq, hfind]
    rfl
  · obtain ⟨ha, hab, hb⟩ := handle.findAt_range hfind
    refine .inr ⟨⟨slice text a b, a, b, true⟩, rfl, ?_, rfl, ?_⟩
    · rw [heq, hfind]
      exact toMatch_of_range hab hb
    · exact ⟨(le_roundUp text pos).trans ha, hab, hb, rfl⟩

theorem hit_of_findAt (hpos : pos ≤ text.length)
    (hm : Regex.findAt ⟨handle, pattern, false⟩ text pos = .ok m) (hfound : m.found = true) :
    Hit text pos m ∧ handle.findAt text (roundUp text pos) = some (m.start, m.stop) := by
  rcases findAt_cases handle pattern hpos with ⟨-, heq⟩ | ⟨m', hrange, heq, -, hhit⟩
  · rw [heq] at hm
    cases hm
    cases hfound
  · rw [heq] at hm
    cases hm
    exact ⟨hhit, hrange⟩

theorem find_eq_findAt (handle : Matcher) (pattern : String) (text : Text) :
    Regex.find ⟨handle, pattern, false⟩ text = Regex.findAt ⟨handle, pattern, false⟩ text 0 := by
  rw [Regex.find, Regex.findAt, if_neg Bool.false_ne_true, if_neg Bool.false_ne_true,
    kryosRegexFind, kryosRegexFindAt, if_neg (Nat.not_lt_zero _), roundUp_zero,
    handle.find_eq_findAt]

/-- The text of a group; that of a group that took no part is empty. -/
def groupText (text : Text) : Option (ℕ × ℕ) → Text
  | none => []
  | some (a, b) => slice text a b

theorem captureLoop_eq {caps : List (Option (ℕ × ℕ))} (hpos : pos ≤ text.length)
    (hcaps : handle.capturesAt text (roundUp text pos) = some caps) (indices : List ℕ)
    (hindices : ∀ i ∈ indices, i < caps.length) (groups : List Text) :
    Regex.captureLoop ⟨handle, pattern, false⟩ text pos indices groups =
      .ok ⟨groups ++ indices.map fun i => groupText text (caps[i]?.getD none),
        handle.captureCount, true⟩ := by
  induction indices generalizing groups with
  | nil => simp [Regex.captureLoop]
  | cons i indices ih =>
    have hi : i < caps.length := hindices i List.mem_cons_self
    have hrest := fun j hj => hindices j (List.mem_cons_of_mem i hj)
    have hreply : kryosRegexCaptureAt handle text pos i =
        .group (caps[i].map fun m => (m.1, m.2 - m.1)) := by
      rw [kryosRegexCaptureAt, if_neg (by omega), hcaps]
      simp only [List.getElem?_eq_getElem hi]
    rw [Regex.captureLoop]
    simp only [hreply]
    rcases hg : caps[i] with _ | ⟨a, b⟩
    · simp only [Option.map_none]
      rw [ih hrest]
      simp [hg, hi, groupText]
    · have hmem : some (a, b) ∈ caps := hg ▸ List.getElem_mem hi
      obtain ⟨hab, hb⟩ := handle.capturesAt_range hcaps hmem
      simp only [Option.map_some, Nat.add_sub_cancel' hab, substr_ok hab hb]
      rw [ih hrest]
      simp [hg, hi, groupText]

section

variable (hpos : pos ≤ text.length) (hm : Regex.findAt ⟨handle, pattern, false⟩ text pos = .ok m)

include hpos hm

/-- The groups of a match that was found; the first is the match itself. -/
theorem capturesAt_of_findAt (hfound : m.found = true) :
    ∃ caps, Regex.capturesAt ⟨handle, pattern, false⟩ text pos = .ok caps ∧ caps.found = true ∧
      caps.groups.head? = some m.text := by
  obtain ⟨hhit, hrange⟩ := hit_of_findAt hpos hm hfound
  have hhead := handle.capturesAt_head text (roundUp text pos)
  rw [hrange, Option.map_some] at hhead
  rcases hcaps : handle.capturesAt text (roundUp text pos) with _ | caps
  · rw [hcaps] at hhead
    cases hhead
  · rw [hcaps, Option.map_some, Option.some_inj] at hhead
    have hlen := handle.capturesAt_length hcaps
    have hindices : ∀ i ∈ List.range (handle.captureCount + 1), i < caps.length := by
      intro i hi
      rw [hlen]
      exact List.mem_range.mp hi
    have hloop := @captureLoop_eq handle pattern text pos caps hpos hcaps _ hindices []
    refine ⟨_, (if_neg Bool.false_ne_true).trans hloop, rfl, ?_⟩
    rw [List.nil_append, List.range_succ_eq_map, List.map_cons, List.head?_cons, hhit.text_eq,
      ← List.head?_eq_getElem?, hhead]
    rfl

theorem capturesAt_of_not_found (hfound : m.found = false) :
    Regex.capturesAt ⟨handle, pattern, false⟩ text pos = .ok ⟨[], 0, false⟩ := by
  rcases findAt_cases handle pattern hpos with ⟨hnone, -⟩ | ⟨m', -, heq, hfound', -⟩
  · have hhead := handle.capturesAt_head text (roundUp text pos)
    rw [hnone, Option.map_none, Option.map_eq_none_iff] at hhead
    rw [Regex.capturesAt, if_neg Bool.false_ne_true, List.range_succ_eq_map, Regex.captureLoop]
    simp only [kryosRegexCaptureAt, if_neg (show ¬ pos > text.length by omega), hhead]
  · rw [heq] at hm
    cases hm
    rw [hfound] at hfound'
    cases hfound'

theorem groupsAt_of_findAt (hfound : m.found = true) :
    ∃ groups, Regex.groupsAt ⟨handle, pattern, false⟩ text pos m = .ok groups ∧
      groups.head? = some m.text := by
  rw [Regex.groupsAt]
  split
  · obtain ⟨caps, hcaps, -, hhead⟩ := capturesAt_of_findAt hpos hm hfound
    rw [hcaps]
    exact ⟨caps.groups, rfl, hhead⟩
  · exact ⟨[m.text], rfl, rfl⟩

end

end Live

/-! ## The scan -/

/-- Where the scan goes on behind a match. -/
def Match.next (m : Match) : ℕ := if m.stop = m.start then m.stop + 1 else m.stop

/-- The segment of the text that was matched. -/
def Match.range (m : Match) : ℕ × ℕ := (m.start, m.stop)

/-- The matches that a scan from `pos` on meets. -/
inductive Scan (re : Regex) (text : Text) : ℕ → List Match → Prop
  | past {pos : ℕ} (hpos : text.length < pos) : Scan re text pos []
  | noMatch {pos : ℕ} {m : Match} (hpos : pos ≤ text.length) (hm : re.findAt text pos = .ok m)
      (hfound : m.found = false) : Scan re text pos []
  | hit {pos : ℕ} {m : Match} {ms : List Match} (hpos : pos ≤ text.length)
      (hm : re.findAt text pos = .ok m) (hfound : m.found = true)
      (hrest : Scan re text m.next ms) : Scan re text pos (m :: ms)

theorem Hit.pos_lt_next {text : Text} {pos : ℕ} {m : Match} (h : Hit text pos m) :
    pos < m.next := by
  have hstart := h.le_start
  have hstop := h.start_le
  rw [Match.next]
  split <;> omega

theorem Hit.next_le {text : Text} {pos : ℕ} {m : Match} (h : Hit text pos m) :
    m.next ≤ text.length + 1 := by
  have hstop := h.stop_le
  rw [Match.next]
  split <;> omega

theorem Hit.stop_le_next (m : Match) : m.stop ≤ m.next := by
  rw [Match.next]
  split <;> omega

section Live

variable {handle : Matcher} {pattern : String} {text : Text} {pos n : ℕ} {ms : List Match}

/-- Every scan comes to an end. -/
theorem exists_scan (handle : Matcher) (pattern : String) (text : Text) (pos : ℕ) :
    ∃ ms, Scan ⟨handle, pattern, false⟩ text pos ms := by
  by_cases hpos : pos ≤ text.length
  · rcases findAt_cases handle pattern hpos with ⟨-, hm⟩ | ⟨m, -, hm, hfound, hhit⟩
    · exact ⟨[], .noMatch hpos hm rfl⟩
    · have hlt := hhit.pos_lt_next
      obtain ⟨ms, hms⟩ := exists_scan handle pattern text m.next
      exact ⟨m :: ms, .hit hpos hm hfound hms⟩
  · exact ⟨[], .past (by omega)⟩
termination_by text.length + 1 - pos

section

variable (h : Scan ⟨handle, pattern, false⟩ text pos ms)

include h

/-- The matches come one after another. -/
theorem Scan.ordered (hpos : pos ≤ text.length) : Ordered text.length pos (ms.map Match.range) := by
  induction h with
  | past | noMatch => exact hpos
  | @hit pos m ms hle hm hfound hrest ih =>
    obtain ⟨hhit, -⟩ := hit_of_findAt hle hm hfound
    refine ⟨hhit.le_start, hhit.start_le, ?_⟩
    by_cases hnext : m.next ≤ text.length
    · exact (ih hnext).mono (Hit.stop_le_next m)
    · cases hrest with
      | past => exact hhit.stop_le
      | noMatch h => exact absurd h hnext
      | hit h => exact absurd h hnext

/-- Each match holds its segment of the text. -/
theorem Scan.map_text :
    ms.map Match.text = (ms.map Match.range).map fun seg => slice text seg.1 seg.2 := by
  induction h with
  | past | noMatch => rfl
  | hit hle hm hfound hrest ih =>
    rw [List.map_cons, List.map_cons, List.map_cons, ih, (hit_of_findAt hle hm hfound).1.text_eq]
    rfl

theorem findAllLoop_eq (hn : text.length + 2 ≤ n + pos) (hpos : pos ≤ text.length + 1)
    (results : List Match) :
    Regex.findAllLoop ⟨handle, pattern, false⟩ text n pos results = .ok (results ++ ms) := by
  induction h generalizing n results with
  | past hlt =>
    obtain ⟨n, rfl⟩ : ∃ k, n = k + 1 := ⟨n - 1, by omega⟩
    rw [Regex.findAllLoop, if_neg (by omega), List.append_nil]
  | noMatch hle hm hfound =>
    obtain ⟨n, rfl⟩ : ∃ k, n = k + 1 + 1 := ⟨n - 2, by omega⟩
    rw [Regex.findAllLoop, if_pos hle]
    simp only [hm, hfound, Bool.false_eq_true, if_false]
    rw [Regex.findAllLoop, if_neg (by omega), List.append_nil]
  | @hit pos m ms hle hm hfound hrest ih =>
    obtain ⟨n, rfl⟩ : ∃ k, n = k + 1 := ⟨n - 1, by omega⟩
    obtain ⟨hhit, -⟩ := hit_of_findAt hle hm hfound
    have hlt := hhit.pos_lt_next
    rw [Regex.findAllLoop, if_pos hle]
    simp only [hm, hfound, if_true]
    rw [List.append_cons results m ms]
    exact ih (n := n) (by omega) hhit.next_le (results ++ [m])

end

/-! ## Splitting -/

/-- Behind the scan, `split` adds the empty part that follows a last match. -/
theorem splitLoop_past (hn : 0 < n) (hpos : text.length < pos) (last : ℕ) (consumed : Bool)
    (parts : List Text) :
    Regex.splitLoop ⟨handle, pattern, false⟩ text n pos last consumed parts =
      .ok (if consumed ∧ text.length > 0 then parts ++ [[]] else parts) := by
  obtain ⟨n, rfl⟩ : ∃ k, n = k + 1 := ⟨n - 1, by omega⟩
  rw [Regex.splitLoop, if_neg (by omega)]
  split <;> rfl

/-- `split` collects the gaps between the matches, if the text is not empty or has no match. -/
theorem splitLoop_eq (h : Scan ⟨handle, pattern, false⟩ text pos ms)
    (hn : text.length + 2 ≤ n + pos) (hpos : pos ≤ text.length) {last : ℕ} (hlast : last ≤ pos)
    (htext : 0 < text.length ∨ ms = []) (consumed : Bool) (parts : List Text) :
    Regex.splitLoop ⟨handle, pattern, false⟩ text n pos last consumed parts =
      .ok (parts ++ gaps text last (ms.map Match.range)) := by
  induction h generalizing n last consumed parts with
  | past hlt => omega
  | noMatch hle hm hfound =>
    obtain ⟨n, rfl⟩ : ∃ k, n = k + 1 := ⟨n - 1, by omega⟩
    rw [Regex.splitLoop, if_pos hle]
    simp only [hm, hfound, Bool.false_eq_true, if_false,
      substr_ok (hlast.trans hpos) (Nat.le_refl _)]
    rw [splitLoop_past (by omega) (Nat.lt_succ_self _)]
    simp [gaps]
  | @hit pos m ms hle hm hfound hrest ih =>
    obtain ⟨n, rfl⟩ : ∃ k, n = k + 1 := ⟨n - 1, by omega⟩
    obtain ⟨hhit, -⟩ := hit_of_findAt hle hm hfound
    have hlt := hhit.pos_lt_next
    have hstart := hlast.trans hhit.le_start
    have hpart : parts ++ gaps text last ((m :: ms).map Match.range) =
        parts ++ [slice text last m.start] ++ gaps text m.stop (ms.map Match.range) := by
      rw [List.append_assoc]
      rfl
    have hpositive : 0 < text.length := htext.resolve_right (List.cons_ne_nil m ms)
    rw [Regex.splitLoop, if_pos hle, hpart]
    simp only [hm, hfound, if_true, substr_ok hstart (hhit.start_le.trans hhit.stop_le)]
    show Regex.splitLoop _ text n m.next m.stop true _ = _
    by_cases hnext : m.next ≤ text.length
    · exact ih (n := n) (by omega) hnext (Hit.stop_le_next m) (.inl hpositive) true _
    · -- The last match is empty and lies at the end.
      have hstop : m.stop = text.length := by
        have hstop := hhit.stop_le
        rw [Match.next] at hnext
        split at hnext <;> omega
      cases hrest with
      | past =>
        rw [splitLoop_past (by omega) (by omega), if_pos ⟨rfl, hpositive⟩, hstop]
        simp [gaps, slice_self]
      | noMatch h => exact absurd h hnext
      | hit h => exact absurd h hnext

/-! ## Replacing -/

/-- The matches, each with the position from which it was found. -/
def hits : ℕ → List Match → List (ℕ × Match)
  | _, [] => []
  | pos, m :: ms => (pos, m) :: hits m.next ms

/-- The groups of all matches. -/
def allGroups (re : Regex) (text : Text) (pos : ℕ) (ms : List Match) :
    Except Failure (List (List Text)) :=
  (hits pos ms).mapM fun hit => re.groupsAt text hit.1 hit.2

variable {gs : List (List Text)}

theorem allGroups_cons {re : Regex} {m : Match} {g : List Text}
    (hg : re.groupsAt text pos m = .ok g) (hgs : allGroups re text m.next ms = .ok gs) :
    allGroups re text pos (m :: ms) = .ok (g :: gs) := by
  rw [allGroups, hits, List.mapM_cons]
  rw [allGroups] at hgs
  simp only [hg, hgs]
  rfl

theorem exists_allGroups (h : Scan ⟨handle, pattern, false⟩ text pos ms) :
    ∃ gs, allGroups ⟨handle, pattern, false⟩ text pos ms = .ok gs ∧
      gs.map List.head? = ms.map fun m => some m.text := by
  induction h with
  | past | noMatch => exact ⟨[], rfl, rfl⟩
  | @hit pos m ms hle hm hfound hrest ih =>
    obtain ⟨g, hg, hhead⟩ := groupsAt_of_findAt hle hm hfound
    obtain ⟨gs, hgs, hheads⟩ := ih
    refine ⟨g :: gs, allGroups_cons hg hgs, ?_⟩
    rw [List.map_cons, List.map_cons, hhead, hheads]

/-- What `replace_all` still adds, from a position at which nothing is left open. -/
theorem replaceLoop_eq (h : Scan ⟨handle, pattern, false⟩ text pos ms) (replacement : Text)
    (hn : text.length + 2 ≤ n + pos) (hpos : pos ≤ text.length + 1)
    (hgs : allGroups ⟨handle, pattern, false⟩ text pos ms = .ok gs) (sb : Text) :
    Regex.replaceLoop ⟨handle, pattern, false⟩ text replacement n pos pos sb =
      .ok (sb ++ interleave (gaps text pos (ms.map Match.range))
        (gs.map fun groups => expandGroups groups replacement)) := by
  induction h generalizing n gs sb with
  | past hlt =>
    cases hgs
    obtain ⟨n, rfl⟩ : ∃ k, n = k + 1 := ⟨n - 1, by omega⟩
    rw [Regex.replaceLoop, if_neg (by omega), if_neg (by omega), List.map_nil, gaps,
      slice_length, List.drop_eq_nil_of_le (by omega)]
    simp [interleave]
  | @noMatch pos m hle hm hfound =>
    obtain rfl : gs = [] := by
      cases hgs
      rfl
    obtain ⟨n, rfl⟩ : ∃ k, n = k + 1 + 1 := ⟨n - 2, by omega⟩
    have hrest : interleave (gaps text pos []) [] = text.drop pos := by
      simp [gaps, interleave, slice_length]
    rw [Regex.replaceLoop, if_pos hle]
    simp only [hm, hfound, Bool.false_eq_true, if_false]
    rw [Regex.replaceLoop, if_neg (by omega), List.map_nil, List.map_nil, hrest]
    split
    · rw [substr_ok hle (Nat.le_refl _), slice_length]
    · rw [List.drop_eq_nil_of_le (by omega), List.append_nil]
  | @hit pos m ms hle hm hfound hrest ih =>
    obtain ⟨n, rfl⟩ : ∃ k, n = k + 1 := ⟨n - 1, by omega⟩
    obtain ⟨hhit, -⟩ := hit_of_findAt hle hm hfound
    obtain ⟨g, hg, -⟩ := groupsAt_of_findAt hle hm hfound
    obtain ⟨gs', hgs', -⟩ := exists_allGroups hrest
    cases (allGroups_cons hg hgs').symm.trans hgs
    have hlt := hhit.pos_lt_next
    have hbefore := substr_ok hhit.le_start (hhit.start_le.trans hhit.stop_le)
    have hloop := fun sb => ih (n := n) (by omega) hhit.next_le hgs' sb
    have hsplit : interleave (gaps text pos ((m :: ms).map Match.range))
        ((g :: gs').map fun groups => expandGroups groups replacement) =
          slice text pos m.start ++ expandGroups g replacement ++
            interleave (gaps text m.stop (ms.map Match.range))
              (gs'.map fun groups => expandGroups groups replacement) := rfl
    rw [Regex.replaceLoop, if_pos hle, hsplit]
    simp only [hm, hfound, if_true, hbefore, hg]
    by_cases hempty : m.stop = m.start
    · have hnext : m.next = m.stop + 1 := if_pos hempty
      rw [hnext] at hloop hrest
      rw [if_pos hempty]
      by_cases hend : m.stop < text.length
      · rw [if_pos hend, substr_ok (Nat.le_succ _) hend]
        simp only [hloop]
        rw [interleave_gaps_of_le _ (Nat.le_succ m.stop) (hrest.ordered hend)]
        simp only [List.append_assoc]
      · rw [if_neg hend, hloop]
        cases hrest with
        | past =>
          have hnil : gs' = [] := by
            cases hgs'
            rfl
          subst hnil
          have hdrop := List.drop_eq_nil_of_le (show text.length ≤ m.stop by omega)
          have hdrop' := List.drop_eq_nil_of_le (show text.length ≤ m.stop + 1 by omega)
          simp [gaps, interleave, slice_length, hdrop, hdrop']
        | noMatch h => omega
        | hit h => omega
    · have hnext : m.next = m.stop := if_neg hempty
      rw [hnext] at hloop
      rw [if_neg hempty, hloop]
      simp only [List.append_assoc]

theorem spliceMatch_eq {m : Match} (hhit : Hit text 0 m) (filling : Text) :
    Regex.spliceMatch text m filling =
      .ok (interleave (gaps text 0 [m.range]) [filling]) := by
  have hbefore := substr_ok (Nat.zero_le m.start) (hhit.start_le.trans hhit.stop_le)
  have hafter := substr_ok hhit.stop_le (Nat.le_refl text.length)
  rw [Regex.spliceMatch]
  simp only [hbefore, hafter, Match.range, gaps, interleave, List.flatten_nil, List.append_nil]

/-- `replace` is `replace_all` with the first match alone. -/
theorem replace_eq (h : Scan ⟨handle, pattern, false⟩ text 0 ms) (replacement : Text)
    (hgs : allGroups ⟨handle, pattern, false⟩ text 0 ms = .ok gs) :
    Regex.replace ⟨handle, pattern, false⟩ text replacement =
      .ok (interleave (gaps text 0 ((ms.take 1).map Match.range))
        ((gs.take 1).map fun groups => expandGroups groups replacement)) := by
  have hwhole : interleave (gaps text 0 []) [] = text := by
    simp [gaps, interleave, slice_length]
  rw [Regex.replace, if_neg Bool.false_ne_true]
  cases h with
  | past hlt => exact absurd hlt (Nat.not_lt_zero _)
  | noMatch hle hm hfound =>
    obtain rfl : gs = [] := by
      cases hgs
      rfl
    rw [List.take_nil, List.take_nil, List.map_nil, List.map_nil, hwhole]
    split
    · rw [capturesAt_of_not_found hle hm hfound]
      rfl
    · rw [find_eq_findAt, hm]
      simp only [hfound, Bool.false_eq_true, if_false]
  | @hit _ m ms hle hm hfound hrest =>
    obtain ⟨hhit, -⟩ := hit_of_findAt hle hm hfound
    obtain ⟨g, hg, -⟩ := groupsAt_of_findAt hle hm hfound
    obtain ⟨gs', hgs', -⟩ := exists_allGroups hrest
    cases (allGroups_cons hg hgs').symm.trans hgs
    rw [Regex.groupsAt] at hg
    simp only [List.take_succ_cons, List.take_zero, List.map_cons, List.map_nil]
    rw [← spliceMatch_eq hhit]
    split
    · next hcount =>
      obtain ⟨caps, hcaps, hcapsFound, -⟩ := capturesAt_of_findAt hle hm hfound
      simp only [if_pos hcount, hcaps, Except.ok.injEq] at hg
      subst hg
      simp only [hcaps, hcapsFound, if_true, hm]
    · next hcount =>
      rw [if_neg hcount] at hg
      cases hg
      rw [find_eq_findAt, hm]
      simp only [hfound, if_true]

/-! ## Agreement -/

/-- The text `$0`. -/
def wholeMatch : Text := [36, 48]

theorem expandGroups_wholeMatch {groups : List Text} {t : Text} (h : groups.head? = some t) :
    expandGroups groups wholeMatch = t := by
  obtain ⟨rest, rfl⟩ := List.head?_eq_some_iff.mp h
  have hdollar : (48 : UInt8) ≠ dollar := by decide
  have hdigit : isDigit 48 = true := by decide
  rw [wholeMatch, expandGroups, if_pos (show (36 : UInt8) = dollar from rfl), if_neg hdollar,
    if_pos hdigit, if_pos (show UInt8.toNat 48 - 48 < (t :: rest).length from Nat.zero_lt_succ _)]
  simp [groupDigits, expandGroups]

/-- The matches, the parts and the groups of one text belong together. -/
structure Laws (re : Regex) (text replacement : Text) (ms : List Match) (parts : List Text)
    (groups : List (List Text)) : Prop where
  findAll : re.findAll text = .ok ms
  split : re.split text = .ok parts
  allGroups : allGroups re text 0 ms = .ok groups
  length_parts : parts.length = ms.length + 1
  interleave_parts : interleave parts (ms.map Match.text) = text
  replaceAll : re.replaceAll text replacement =
    .ok (interleave parts (groups.map fun g => expandGroups g replacement))
  replaceAll_wholeMatch : re.replaceAll text wholeMatch = .ok text
  replace : re.replace text replacement =
    .ok (interleave (gaps text 0 ((ms.take 1).map Match.range))
      ((groups.take 1).map fun g => expandGroups g replacement))

/-- All calls return, and their results belong together. -/
def Agree (re : Regex) (text replacement : Text) : Prop :=
  ∃ ms parts groups, Laws re text replacement ms parts groups

section

variable (h : Scan ⟨handle, pattern, false⟩ text 0 ms)

include h

theorem findAll_eq : Regex.findAll ⟨handle, pattern, false⟩ text = .ok ms := by
  rw [Regex.findAll, if_neg Bool.false_ne_true]
  exact findAllLoop_eq h (Nat.le_refl _) (Nat.zero_le _) []

theorem replaceAll_eq (replacement : Text)
    (hgs : allGroups ⟨handle, pattern, false⟩ text 0 ms = .ok gs) :
    Regex.replaceAll ⟨handle, pattern, false⟩ text replacement =
      .ok (interleave (gaps text 0 (ms.map Match.range))
        (gs.map fun groups => expandGroups groups replacement)) := by
  rw [Regex.replaceAll, if_neg Bool.false_ne_true]
  exact replaceLoop_eq h replacement (Nat.le_refl _) (Nat.zero_le _) hgs []

theorem laws_of_scan (replacement : Text) (htext : 0 < text.length ∨ ms = []) :
    Agree ⟨handle, pattern, false⟩ text replacement := by
  obtain ⟨gs, hgs, hheads⟩ := exists_allGroups h
  have hparts : interleave (gaps text 0 (ms.map Match.range)) (ms.map Match.text) = text := by
    rw [h.map_text, interleave_gaps (h.ordered (Nat.zero_le _)), List.drop_zero]
  have hwhole : gs.map (fun g => expandGroups g wholeMatch) = ms.map Match.text := by
    apply List.ext_getElem?
    intro i
    have hi := congrArg (fun l => l[i]?) hheads
    simp only [List.getElem?_map] at hi ⊢
    rcases hg : gs[i]? with _ | g <;> rcases hm : ms[i]? with _ | m <;>
      simp only [hg, hm, Option.map_some, Option.map_none, reduceCtorEq, Option.some.injEq] at hi ⊢
    exact expandGroups_wholeMatch hi
  refine ⟨ms, gaps text 0 (ms.map Match.range), gs, findAll_eq h, ?_, hgs, ?_, hparts,
    replaceAll_eq h replacement hgs, ?_, replace_eq h replacement hgs⟩
  · rw [Regex.split, if_neg Bool.false_ne_true]
    exact splitLoop_eq h (Nat.le_refl _) (Nat.zero_le _) (Nat.le_refl 0) htext false []
  · rw [length_gaps, List.length_map]
  · rw [replaceAll_eq h wholeMatch hgs, hwhole, hparts]

end

/-- An empty text that the pattern matches is one part, and not two. -/
theorem split_nil (h : Scan ⟨handle, pattern, false⟩ [] 0 ms) (hms : ms ≠ []) :
    Regex.split ⟨handle, pattern, false⟩ [] = .ok [[]] := by
  rw [Regex.split, if_neg Bool.false_ne_true]
  cases h with
  | past | noMatch => exact absurd rfl hms
  | @hit _ m ms hle hm hfound hrest =>
    obtain ⟨hhit, -⟩ := hit_of_findAt hle hm hfound
    have hstop : m.stop = 0 := Nat.le_zero.mp hhit.stop_le
    have hstart : m.start = 0 := Nat.le_zero.mp (hstop ▸ hhit.start_le)
    rw [Regex.splitLoop, if_pos hle]
    simp only [hm, hfound, if_true, hstart, hstop]
    rw [substr_ok (Nat.le_refl 0) (Nat.zero_le _)]
    simp only [slice_self, List.nil_append]
    exact splitLoop_past (Nat.zero_lt_succ _) Nat.zero_lt_one 0 true [[]]

/-- Whether the empty text has a match. -/
theorem Scan.nil_iff (h : Scan ⟨handle, pattern, false⟩ [] 0 ms) :
    handle.findAt [] 0 = none ↔ ms = [] := by
  rcases findAt_cases handle pattern (Nat.zero_le ([] : Text).length) with
    ⟨hnone, heq⟩ | ⟨m, hsome, heq, hfound, -⟩
  · rw [roundUp_zero] at hnone
    refine ⟨fun _ => ?_, fun _ => hnone⟩
    cases h with
    | past | noMatch => rfl
    | hit _ hm hfound =>
      rw [heq] at hm
      cases hm
      cases hfound
  · rw [roundUp_zero] at hsome
    refine ⟨fun hnone => ?_, fun hnil => ?_⟩
    · rw [hnone] at hsome
      cases hsome
    · subst hnil
      cases h with
      | past hlt => exact absurd hlt (Nat.lt_irrefl _)
      | noMatch _ hm hnot =>
        rw [heq] at hm
        cases hm
        rw [hnot] at hfound
        cases hfound

/-- **The three loops and `replace` agree on every text, but on the empty text only if the pattern
does not match it.** -/
theorem agree_iff (handle : Matcher) (pattern : String) (text replacement : Text) :
    Agree ⟨handle, pattern, false⟩ text replacement ↔
      text ≠ [] ∨ handle.findAt [] 0 = none := by
  obtain ⟨ms, hms⟩ := exists_scan handle pattern text 0
  rcases text with _ | ⟨b, text⟩
  · have hscan := hms.nil_iff
    constructor
    · rintro ⟨ms', parts, groups, hlaws⟩
      refine .inr (hscan.mpr (by_contra fun hne => ?_))
      cases (findAll_eq hms).symm.trans hlaws.findAll
      cases (split_nil hms hne).symm.trans hlaws.split
      have hlen := hlaws.length_parts
      have hpos := List.length_pos_iff.mpr hne
      simp only [List.length_singleton] at hlen
      omega
    · rintro (hne | hnone)
      · exact absurd rfl hne
      · exact laws_of_scan hms replacement (.inr (hscan.mp hnone))
  · exact ⟨fun _ => .inl (List.cons_ne_nil b text),
      fun _ => laws_of_scan hms replacement (.inl (Nat.zero_lt_succ _))⟩

end Live

/-- The empty pattern, which matches at every position. -/
def emptyPattern : Matcher where
  find _ := some (0, 0)
  findAt text s := if s ≤ text.length then some (s, s) else none
  captureCount := 0
  capturesAt text s := if s ≤ text.length then some [some (s, s)] else none
  findAt_range := by
    intro text s a b h
    split at h
    · cases h
      omega
    · cases h
  find_eq_findAt := fun text => (if_pos (Nat.zero_le _)).symm
  capturesAt_head := by
    intro text s
    split <;> rfl
  capturesAt_length := by
    intro text s groups h
    split at h <;> cases h
    rfl
  capturesAt_range := by
    intro text s groups a b h hmem
    split at h <;> cases h
    cases List.mem_singleton.mp hmem
    omega

/-- The empty text has one match and one part. -/
theorem emptyPattern_not_agree : ¬ Agree ⟨emptyPattern, "", false⟩ [] [] := by
  rintro ⟨ms, parts, groups, hlaws⟩
  obtain ⟨ms', hscan⟩ := exists_scan emptyPattern "" [] 0
  cases (findAll_eq hscan).symm.trans hlaws.findAll
  have hne : ms ≠ [] := fun hnil => by cases hscan.nil_iff.mpr hnil
  cases (split_nil hscan hne).symm.trans hlaws.split
  have hlen := hlaws.length_parts
  have hpos := List.length_pos_iff.mpr hne
  simp only [List.length_singleton] at hlen
  omega

end Kryos.Stdlib.Re
