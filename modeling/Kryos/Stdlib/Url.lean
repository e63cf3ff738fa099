import Kryos.Stdlib.HttpText
import Mathlib.Data.List.DropRight

/-!
# URLs in the HTTP library

`parse_url` takes a text apart at its delimiters, in a fixed order on what is left, and
`url_to_string` puts the parts together again. The first delimiter of each kind counts, but the
last `@`; the brackets around a host are taken off and not put back.

## Main results

* `Http.parseUrl_eq` — parsing never panics; the parts are cut off one after another
* `Http.urlOf_print` — what is printed is parsed into the same parts, the host and the port apart
* `Http.stable_iff` — the port fits and the URL round-trips exactly when its authority says so
-/

namespace Kryos.Stdlib.Http

open Str

structure Url where
  scheme : Text
  host : Text
  port : ℤ
  path : Text
  query : Text
  fragment : Text
  raw : Text
  deriving DecidableEq

def http : Text := ascii ['h', 't', 't', 'p']

def https : Text := ascii ['h', 't', 't', 'p', 's']

def schemeEnd : Text := ascii [':', '/', '/']

/-- What is before a delimiter and what is behind it, with `_find` and `_substring`. -/
def cutAt (rest delimiter : Text) : Except Failure (Option (Text × Text)) := do
  match ← find rest delimiter with
  | none => return none
  | some i =>
    let before ← substring rest 0 i
    let behind ← substring rest (i + delimiter.length) rest.length
    return some (before, behind)

/-- The path begins with its delimiter. -/
def cutPath (rest : Text) : Except Failure (Option (Text × Text)) := do
  match ← find rest ['/'.toUInt8] with
  | none => return none
  | some i =>
    let path ← substring rest i rest.length
    let before ← substring rest 0 i
    return some (before, path)

/-- `while i >= 0`, from the last character down -/
def stripUserinfo (rest : Text) : ℕ → Except Failure Text
  | 0 => return rest
  | i + 1 => do
    let ch ← substring rest i (i + 1)
    if ch = ['@'.toUInt8] then substring rest (i + 1) rest.length else stripUserinfo rest i

/-- The port of the scheme. -/
def defaultPort (scheme : Text) : ℤ := if scheme = https then 443 else 80

/-- `len(s) > k and _substring(s, 0, 1) == c` -/
def longerStartingWith (s : Text) (k : ℕ) (c : Char) : Except Failure Bool :=
  if s.length > k then (substring s 0 1).map fun first => decide (first = [c.toUInt8])
  else .ok false

/-- The host and the port of what is left. -/
def hostAndPort (rest : Text) (default : ℤ) : Except Failure (Text × ℤ) := do
  if ← longerStartingWith rest 0 '[' then
    match ← find rest [']'.toUInt8] with
    | none => return (rest, default)
    | some close =>
      let host ← substring rest 1 close
      let after ← substring rest (close + 1) rest.length
      if ← longerStartingWith after 1 ':' then
        let p ← parsePort (← substring after 1 after.length)
        return (host, p.getD default)
      else return (host, default)
  else
    match ← find rest [':'.toUInt8] with
    | none => return (rest, default)
    | some colon =>
      let host ← substring rest 0 colon
      let p ← parsePort (← substring rest (colon + 1) rest.length)
      return (host, p.getD default)

def parseUrl (raw : Text) : Except Failure Url := do
  let (scheme, rest) := (← cutAt raw schemeEnd).getD (http, raw)
  let (rest, fragment) := (← cutAt rest ['#'.toUInt8]).getD (rest, [])
  let (rest, query) := (← cutAt rest ['?'.toUInt8]).getD (rest, [])
  let (rest, path) := (← cutPath rest).getD (rest, ['/'.toUInt8])
  let rest ← stripUserinfo rest rest.length
  let (host, port) ← hostAndPort rest (defaultPort scheme)
  return { scheme, host, port, path, query, fragment, raw }

def urlToString (u : Url) : Text :=
  u.scheme ++ schemeEnd ++ u.host ++
    (if u.port ≠ defaultPort u.scheme then [':'.toUInt8] ++ toText u.port else []) ++ u.path ++
    (if u.query.length > 0 then ['?'.toUInt8] ++ u.query else []) ++
    (if u.fragment.length > 0 then ['#'.toUInt8] ++ u.fragment else [])

/-! ## What is parsed -/

/-- The text without its part up to the last `@`. -/
def withoutUserinfo (rest : Text) : Text := rest.rtakeWhile (· ≠ '@'.toUInt8)

/-- What the brackets enclose, and what is behind them. -/
def bracketed : Text → Option (Text × Text)
  | [] => none
  | b :: rest => if b = '['.toUInt8 then Cut.cut [']'.toUInt8] rest else none

/-- The text before the first `c`. -/
def before (c : Char) (rest : Text) : Text := ((Cut.cut [c.toUInt8] rest).map Prod.fst).getD rest

/-- The text behind the first `c`. -/
def behind (c : Char) (rest : Text) : Text := ((Cut.cut [c.toUInt8] rest).map Prod.snd).getD []

/-- The text that is read as the port. -/
def portText (authority : Text) : Text :=
  match bracketed authority with
  | some (_, after) => if after.head? = some ':'.toUInt8 then after.tail else []
  | none => if authority.head? = some '['.toUInt8 then [] else behind ':' authority

/-- The text that is taken as the host. -/
def hostText (authority : Text) : Text :=
  match bracketed authority with
  | some (host, _) => host
  | none => if authority.head? = some '['.toUInt8 then authority else before ':' authority

def portOf (authority scheme : Text) : ℤ :=
  ((statedPort (portText authority)).map fun n : ℕ => (n : ℤ)).getD (defaultPort scheme)

def schemeOf (raw : Text) : Text := ((Cut.cut schemeEnd raw).map Prod.fst).getD http

def afterScheme (raw : Text) : Text := ((Cut.cut schemeEnd raw).map Prod.snd).getD raw

def withoutFragment (raw : Text) : Text := before '#' (afterScheme raw)

def withoutQuery (raw : Text) : Text := before '?' (withoutFragment raw)

def pathOf (rest : Text) : Text :=
  ((Cut.cut ['/'.toUInt8] rest).map fun parts => ['/'.toUInt8] ++ parts.2).getD ['/'.toUInt8]

/-- The text that the host and the port are taken from. -/
def authorityOf (raw : Text) : Text := withoutUserinfo (before '/' (withoutQuery raw))

def urlOf (raw : Text) : Url where
  scheme := schemeOf raw
  host := hostText (authorityOf raw)
  port := portOf (authorityOf raw) (schemeOf raw)
  path := pathOf (withoutQuery raw)
  query := behind '?' (withoutFragment raw)
  fragment := behind '#' (afterScheme raw)
  raw := raw

theorem urlOf_host (raw : Text) : (urlOf raw).host = hostText (authorityOf raw) := rfl

theorem urlOf_port (raw : Text) : (urlOf raw).port = portOf (authorityOf raw) (schemeOf raw) := rfl

/-! ## Each step -/

theorem cutAt_eq {delimiter : Text} (hne : delimiter ≠ []) (rest : Text) :
    cutAt rest delimiter = .ok (Cut.cut delimiter rest) := by
  rw [cutAt, find_eq hne]
  cases hcut : Cut.cut delimiter rest with
  | none => rfl
  | some parts =>
    obtain ⟨a, b⟩ := parts
    have heq := Cut.eq_of_cut hcut
    have hlen := congrArg List.length heq
    rw [List.length_append, List.length_append] at hlen
    show (do
      let before ← substring rest 0 a.length
      let behind ← substring rest (a.length + delimiter.length) rest.length
      return some (before, behind)) = _
    rw [substring_to (by omega), substring_from (by omega), heq, List.take_left, ← List.drop_drop,
      List.drop_left, List.drop_left]
    rfl

theorem cutPath_eq (rest : Text) :
    cutPath rest = .ok ((Cut.cut ['/'.toUInt8] rest).map fun parts =>
      (parts.1, ['/'.toUInt8] ++ parts.2)) := by
  have hne : ['/'.toUInt8] ≠ [] := List.cons_ne_nil _ _
  rw [cutPath, find_eq hne]
  cases hcut : Cut.cut ['/'.toUInt8] rest with
  | none => rfl
  | some parts =>
    obtain ⟨a, b⟩ := parts
    have heq := Cut.eq_of_cut hcut
    have hlen := congrArg List.length heq
    rw [List.length_append] at hlen
    show (do
      let path ← substring rest a.length rest.length
      let before ← substring rest 0 a.length
      return some (before, path)) = _
    rw [substring_to (by omega), substring_from (by omega), heq, List.take_left, List.drop_left]
    rfl

theorem withoutUserinfo_append {b : Text} (h : '@'.toUInt8 ∉ b) (a : Text) :
    withoutUserinfo (a ++ '@'.toUInt8 :: b) = b := by
  have hall : ∀ x ∈ b.reverse, decide (x ≠ '@'.toUInt8) = true := fun x hx =>
    decide_eq_true fun heq => h (heq ▸ List.mem_reverse.mp hx)
  rw [withoutUserinfo, List.rtakeWhile, List.reverse_append, List.reverse_cons, List.append_assoc,
    List.singleton_append, List.takeWhile_append_of_pos hall,
    List.takeWhile_cons_of_neg (by simp), List.append_nil, List.reverse_reverse]

theorem withoutUserinfo_of_not_mem {rest : Text} (h : '@'.toUInt8 ∉ rest) :
    withoutUserinfo rest = rest :=
  List.rtakeWhile_eq_self_iff.mpr fun _ hx => decide_eq_true fun heq => h (heq ▸ hx)

theorem not_mem_withoutUserinfo (rest : Text) : '@'.toUInt8 ∉ withoutUserinfo rest := by
  intro h
  have hne := List.mem_rtakeWhile_imp h
  exact of_decide_eq_true hne rfl

theorem stripUserinfo_eq (rest : Text) : ∀ i ≤ rest.length, '@'.toUInt8 ∉ rest.drop i →
    stripUserinfo rest i = .ok (withoutUserinfo rest)
  | 0, _, hmem => by
    rw [List.drop_zero] at hmem
    rw [stripUserinfo, withoutUserinfo_of_not_mem hmem]
    rfl
  | i + 1, hi, hmem => by
    have hsub : substring rest i (i + 1) = .ok [rest[i]] := charAt_ok hi
    rw [stripUserinfo, hsub]
    show (if [rest[i]] = ['@'.toUInt8] then substring rest (i + 1) rest.length
      else stripUserinfo rest i) = _
    by_cases hat : rest[i] = '@'.toUInt8
    · have hsplit : rest.take i ++ '@'.toUInt8 :: rest.drop (i + 1) = rest := by
        rw [← hat, ← List.drop_eq_getElem_cons hi, List.take_append_drop]
      rw [if_pos (by rw [hat]), substring_from hi]
      refine congrArg Except.ok ?_
      conv_rhs => rw [← hsplit]
      exact (withoutUserinfo_append hmem _).symm
    · rw [if_neg (by simpa using hat)]
      refine stripUserinfo_eq rest i (by omega) ?_
      rw [List.drop_eq_getElem_cons hi, List.mem_cons, not_or]
      exact ⟨Ne.symm hat, hmem⟩

theorem longerStartingWith_eq (s : Text) (k : ℕ) (c : Char) :
    longerStartingWith s k c = .ok (decide (s.length > k ∧ s.head? = some c.toUInt8)) := by
  rw [longerStartingWith]
  by_cases hlen : s.length > k
  · rw [if_pos hlen, substring_to (by omega)]
    obtain ⟨b, s, rfl⟩ := List.exists_cons_of_length_pos (Nat.zero_lt_of_lt hlen)
    simp only [Except.map, hlen, true_and, List.take_succ_cons, List.take_zero, List.head?_cons,
      List.cons.injEq, and_true, Option.some.injEq]
  · rw [if_neg hlen, decide_eq_false fun h => hlen h.1]

theorem portText_length_gt {after : Text} :
    (if after.length > 1 ∧ after.head? = some ':'.toUInt8 then
      (statedPort (after.drop 1)) else none) =
    statedPort (if after.head? = some ':'.toUInt8 then after.tail else []) := by
  by_cases hcolon : after.head? = some ':'.toUInt8
  · obtain ⟨port, rfl⟩ : ∃ port, after = ':'.toUInt8 :: port := List.head?_eq_some_iff.mp hcolon
    cases port with
    | nil => rfl
    | cons b port => simp
  · rw [if_neg fun h => hcolon h.2, if_neg hcolon]
    rfl

theorem bracketed_of_head {authority : Text} (h : authority.head? ≠ some '['.toUInt8) :
    bracketed authority = none := by
  cases authority with
  | nil => rfl
  | cons b rest => exact if_neg fun hb => h (congrArg some hb)

theorem hostAndPort_bracket (rest scheme : Text) :
    hostAndPort ('['.toUInt8 :: rest) (defaultPort scheme) =
      .ok (hostText ('['.toUInt8 :: rest), portOf ('['.toUInt8 :: rest) scheme) := by
  have hclose : [']'.toUInt8] ≠ [] := List.cons_ne_nil _ _
  have hopen : ('['.toUInt8 :: rest).head? = some '['.toUInt8 := rfl
  have hnot : ¬[']'.toUInt8] <+: '['.toUInt8 :: rest := fun h =>
    absurd (Cut.singleton_prefix_cons.mp h) (by decide)
  have hbr : bracketed ('['.toUInt8 :: rest) = Cut.cut [']'.toUInt8] rest := by
    rw [bracketed, if_pos rfl]
  rw [hostAndPort, longerStartingWith_eq, ok_bind,
    if_pos (decide_eq_true ⟨Nat.zero_lt_succ _, hopen⟩), find_eq hclose,
    Cut.cut_cons_of_not_front hnot, ok_bind, hostText, portOf, portText, hbr]
  cases hcut : Cut.cut [']'.toUInt8] rest with
  | none =>
    simp only [hopen, if_true]
    rfl
  | some parts =>
    obtain ⟨host, after⟩ := parts
    have hrest : rest = host ++ ([']'.toUInt8] ++ after) := Cut.eq_of_cut hcut
    have hhost : substring ('['.toUInt8 :: rest) 1 (host.length + 1) = .ok host := by
      rw [substring_ok (by omega) (by rw [hrest]; simp), Nat.add_comm]
      exact congrArg _ (slice_of_drop_eq (i := 1) hrest)
    have hafter : substring ('['.toUInt8 :: rest) (host.length + 1 + 1)
        ('['.toUInt8 :: rest).length = .ok after := by
      rw [substring_from (by rw [hrest]; simp), List.drop_succ_cons, hrest, ← List.drop_drop,
        List.drop_left]
      rfl
    rw [List.length_cons] at hafter
    simp only [Option.map_some, List.length_cons]
    rw [hhost, ok_bind, hafter, ok_bind, longerStartingWith_eq, ok_bind, ← portText_length_gt]
    by_cases hcolon : after.length > 1 ∧ after.head? = some ':'.toUInt8
    · rw [if_pos (decide_eq_true hcolon), if_pos hcolon, substring_from hcolon.1.le, ok_bind,
        parsePort_eq]
      rfl
    · rw [decide_eq_false hcolon, if_neg Bool.false_ne_true, if_neg hcolon]
      rfl

theorem hostAndPort_plain {authority : Text} (hopen : authority.head? ≠ some '['.toUInt8)
    (scheme : Text) : hostAndPort authority (defaultPort scheme) =
      .ok (hostText authority, portOf authority scheme) := by
  have hcolon : [':'.toUInt8] ≠ [] := List.cons_ne_nil _ _
  rw [hostAndPort, longerStartingWith_eq, ok_bind, decide_eq_false fun h => hopen h.2,
    if_neg Bool.false_ne_true, find_eq hcolon, ok_bind, hostText, portOf, portText,
    bracketed_of_head hopen]
  simp only [if_neg hopen, before, behind]
  cases hcut : Cut.cut [':'.toUInt8] authority with
  | none => rfl
  | some parts =>
    obtain ⟨host, port⟩ := parts
    have heq : authority = host ++ ([':'.toUInt8] ++ port) := Cut.eq_of_cut hcut
    have hhost : substring authority 0 host.length = .ok host := by
      rw [substring_to (by rw [heq]; simp), heq, List.take_left]
    have hport : substring authority (host.length + 1) authority.length = .ok port := by
      rw [substring_from (by rw [heq]; simp), heq, ← List.drop_drop, List.drop_left]
      rfl
    simp only [Option.map_some]
    rw [hhost, ok_bind, hport, ok_bind, parsePort_eq]
    rfl

theorem hostAndPort_eq (authority scheme : Text) :
    hostAndPort authority (defaultPort scheme) =
      .ok (hostText authority, portOf authority scheme) := by
  by_cases hopen : authority.head? = some '['.toUInt8
  · obtain ⟨rest, rfl⟩ : ∃ rest, authority = '['.toUInt8 :: rest :=
      List.head?_eq_some_iff.mp hopen
    exact hostAndPort_bracket rest scheme
  · exact hostAndPort_plain hopen scheme

theorem getD_scheme (raw : Text) :
    (Cut.cut schemeEnd raw).getD (http, raw) = (schemeOf raw, afterScheme raw) := by
  rw [schemeOf, afterScheme]
  cases Cut.cut schemeEnd raw <;> rfl

theorem getD_cut (c : Char) (rest : Text) :
    (Cut.cut [c.toUInt8] rest).getD (rest, []) = (before c rest, behind c rest) := by
  rw [before, behind]
  cases Cut.cut [c.toUInt8] rest <;> rfl

theorem getD_path (rest : Text) :
    ((Cut.cut ['/'.toUInt8] rest).map fun parts => (parts.1, ['/'.toUInt8] ++ parts.2)).getD
      (rest, ['/'.toUInt8]) = (before '/' rest, pathOf rest) := by
  rw [before, pathOf]
  cases Cut.cut ['/'.toUInt8] rest <;> rfl

/-- Parsing never panics; the parts are cut off one after another. -/
theorem parseUrl_eq (raw : Text) : parseUrl raw = .ok (urlOf raw) := by
  have hscheme : schemeEnd ≠ [] := List.cons_ne_nil _ _
  have hhash : ['#'.toUInt8] ≠ [] := List.cons_ne_nil _ _
  have hask : ['?'.toUInt8] ≠ [] := List.cons_ne_nil _ _
  have hstrip (rest : Text) : stripUserinfo rest rest.length = .ok (withoutUserinfo rest) :=
    stripUserinfo_eq rest _ (Nat.le_refl _) (by rw [List.drop_length]; exact List.not_mem_nil)
  simp only [parseUrl, cutAt_eq hscheme, cutAt_eq hhash, cutAt_eq hask, cutPath_eq, ok_bind,
    getD_scheme, getD_cut, getD_path, hstrip, hostAndPort_eq]
  rfl

/-! ## What is printed -/

/-- The parts that the printed text has to give back. -/
structure SameParts (u v : Url) : Prop where
  scheme : u.scheme = v.scheme
  host : u.host = v.host
  port : u.port = v.port
  path : u.path = v.path
  query : u.query = v.query
  fragment : u.fragment = v.fragment

/-- A part behind its delimiter, and nothing at all for an empty part. -/
def tail (c : Char) (part : Text) : Text := if part.length > 0 then [c.toUInt8] ++ part else []

theorem before_append {c : Char} {a : Text} (h : c.toUInt8 ∉ a) (b : Text) :
    before c (a ++ c.toUInt8 :: b) = a := by
  rw [before, Cut.cut_singleton h]
  rfl

theorem behind_append {c : Char} {a : Text} (h : c.toUInt8 ∉ a) (b : Text) :
    behind c (a ++ c.toUInt8 :: b) = b := by
  rw [behind, Cut.cut_singleton h]
  rfl

theorem before_of_not_mem {c : Char} {rest : Text} (h : c.toUInt8 ∉ rest) :
    before c rest = rest := by
  rw [before, Cut.cut_of_not_mem h]
  rfl

theorem behind_of_not_mem {c : Char} {rest : Text} (h : c.toUInt8 ∉ rest) :
    behind c rest = [] := by
  rw [behind, Cut.cut_of_not_mem h]
  rfl

theorem not_mem_before (c : Char) (rest : Text) : c.toUInt8 ∉ before c rest := by
  by_cases h : c.toUInt8 ∈ rest
  · obtain ⟨a, b, rfl, ha⟩ := List.eq_append_cons_of_mem h
    rwa [before_append ha]
  · rwa [before_of_not_mem h]

theorem before_isPrefix (c : Char) (rest : Text) : before c rest <+: rest := by
  by_cases h : c.toUInt8 ∈ rest
  · obtain ⟨a, b, rfl, ha⟩ := List.eq_append_cons_of_mem h
    rw [before_append ha]
    exact List.prefix_append a _
  · rw [before_of_not_mem h]

theorem before_subset (c : Char) (rest : Text) : before c rest ⊆ rest :=
  (before_isPrefix c rest).subset

theorem behind_subset (c : Char) (rest : Text) : behind c rest ⊆ rest := by
  by_cases h : c.toUInt8 ∈ rest
  · obtain ⟨a, b, rfl, ha⟩ := List.eq_append_cons_of_mem h
    rw [behind_append ha]
    exact fun x hx => List.mem_append_right a (List.mem_cons_of_mem _ hx)
  · rw [behind_of_not_mem h]
    exact List.nil_subset rest

theorem before_tail {c : Char} {a : Text} (h : c.toUInt8 ∉ a) (part : Text) :
    before c (a ++ tail c part) = a := by
  rw [tail]
  split
  · exact before_append h part
  · rw [List.append_nil, before_of_not_mem h]

theorem behind_tail {c : Char} {a : Text} (h : c.toUInt8 ∉ a) (part : Text) :
    behind c (a ++ tail c part) = part := by
  rw [tail]
  split
  · exact behind_append h part
  · rename_i hlen
    have hnil : part = [] := List.length_eq_zero_iff.mp (Nat.eq_zero_of_not_pos hlen)
    rw [List.append_nil, behind_of_not_mem h, hnil]

theorem mem_tail {c : Char} {part : Text} {b : UInt8} (h : b ∈ tail c part) :
    b = c.toUInt8 ∨ b ∈ part := by
  rw [tail] at h
  split at h
  · exact List.mem_cons.mp h
  · exact absurd h List.not_mem_nil

/-- The parts of a text that is put together from parts without the delimiters behind them. -/
theorem parts_of_print {scheme authority path query fragment : Text}
    (hscheme : ∀ t, Cut.cut schemeEnd (scheme ++ (schemeEnd ++ t)) = some (scheme, t))
    (hauthority : ∀ c ∈ ['/', '?', '#', '@'], c.toUInt8 ∉ authority)
    (hpath : ∀ c ∈ ['?', '#'], c.toUInt8 ∉ path) (hquery : '#'.toUInt8 ∉ query)
    (raw : Text) (hraw : raw = scheme ++ (schemeEnd ++
      (authority ++ '/'.toUInt8 :: path ++ tail '?' query ++ tail '#' fragment))) :
    schemeOf raw = scheme ∧ authorityOf raw = authority ∧
      pathOf (withoutQuery raw) = '/'.toUInt8 :: path ∧ behind '?' (withoutFragment raw) = query ∧
      behind '#' (afterScheme raw) = fragment := by
  have hcut : Cut.cut schemeEnd raw = some (scheme,
      authority ++ '/'.toUInt8 :: path ++ tail '?' query ++ tail '#' fragment) := by
    rw [hraw, hscheme]
  have hschemeOf : schemeOf raw = scheme := by
    rw [schemeOf, hcut]
    rfl
  have hafter : afterScheme raw =
      authority ++ '/'.toUInt8 :: path ++ tail '?' query ++ tail '#' fragment := by
    rw [afterScheme, hcut]
    rfl
  have hask : '?'.toUInt8 ∉ authority ++ '/'.toUInt8 :: path := by
    rw [List.mem_append, List.mem_cons, not_or, not_or]
    exact ⟨hauthority '?' (by decide), by decide, hpath '?' (by decide)⟩
  have hhash : '#'.toUInt8 ∉ authority ++ '/'.toUInt8 :: path ++ tail '?' query := by
    rw [List.mem_append, List.mem_append, List.mem_cons, not_or, not_or, not_or]
    refine ⟨⟨hauthority '#' (by decide), by decide, hpath '#' (by decide)⟩, fun h => ?_⟩
    rcases mem_tail h with h | h
    · exact absurd h (by decide)
    · exact hquery h
  have hfragment : withoutFragment raw = authority ++ '/'.toUInt8 :: path ++ tail '?' query := by
    rw [withoutFragment, hafter, before_tail hhash]
  have hwithout : withoutQuery raw = authority ++ '/'.toUInt8 :: path := by
    rw [withoutQuery, hfragment, before_tail hask]
  have hslash := Cut.cut_singleton (hauthority '/' (by decide)) path
  refine ⟨hschemeOf, ?_, ?_, ?_, ?_⟩
  · rw [authorityOf, hwithout, before_append (hauthority '/' (by decide)),
      withoutUserinfo_of_not_mem (hauthority '@' (by decide))]
  · rw [pathOf, hwithout, hslash]
    rfl
  · rw [hfragment, behind_tail hask]
  · rw [hafter, behind_tail hhash]

/-! ## What is parsed again -/

/-- The port as it is printed. -/
def portSuffix (scheme : Text) (port : ℤ) : Text :=
  if port ≠ defaultPort scheme then [':'.toUInt8] ++ toText port else []

theorem cut_scheme (raw t : Text) :
    Cut.cut schemeEnd (schemeOf raw ++ (schemeEnd ++ t)) = some (schemeOf raw, t) := by
  rw [schemeOf]
  cases hcut : Cut.cut schemeEnd raw with
  | none =>
    have hhttp : Cut.cut schemeEnd (http ++ (schemeEnd ++ [])) = some (http, []) := by decide
    exact Cut.cut_extend hhttp t
  | some parts => exact Cut.cut_extend hcut t

theorem pathOf_eq (rest : Text) : ∃ path, pathOf rest = '/'.toUInt8 :: path ∧
    ∀ b ∈ path, b ∈ rest := by
  rw [pathOf]
  cases hcut : Cut.cut ['/'.toUInt8] rest with
  | none => exact ⟨[], rfl, fun _ h => absurd h List.not_mem_nil⟩
  | some parts =>
    refine ⟨parts.2, rfl, fun b hb => ?_⟩
    rw [Cut.eq_of_cut hcut]
    exact List.mem_append_right _ (List.mem_append_right _ hb)

theorem not_mem_authority (raw : Text) :
    ∀ c ∈ ['/', '?', '#', '@'], c.toUInt8 ∉ authorityOf raw := by
  have hsub : authorityOf raw ⊆ before '/' (withoutQuery raw) := (List.rtakeWhile_suffix _ _).subset
  have hask : '?'.toUInt8 ∉ withoutQuery raw := not_mem_before '?' _
  have hhash : '#'.toUInt8 ∉ withoutQuery raw := fun h =>
    not_mem_before '#' (afterScheme raw) (before_subset '?' _ h)
  simp only [List.forall_mem_cons, List.not_mem_nil, false_imp_iff, implies_true, and_true]
  exact ⟨fun h => not_mem_before '/' _ (hsub h), fun h => hask (before_subset '/' _ (hsub h)),
    fun h => hhash (before_subset '/' _ (hsub h)), not_mem_withoutUserinfo _⟩

theorem eq_of_bracketed {authority host after : Text}
    (h : bracketed authority = some (host, after)) :
    authority = '['.toUInt8 :: (host ++ ']'.toUInt8 :: after) ∧ ']'.toUInt8 ∉ host := by
  cases authority with
  | nil => cases h
  | cons b rest =>
    rw [bracketed, Option.ite_none_right_eq_some] at h
    obtain ⟨rfl, hcut⟩ := h
    obtain ⟨rfl, hmem⟩ := Cut.cut_singleton_eq_some hcut
    exact ⟨rfl, hmem⟩

theorem hostText_subset (authority : Text) : hostText authority ⊆ authority := by
  rw [hostText]
  cases hbr : bracketed authority with
  | none =>
    by_cases hopen : authority.head? = some '['.toUInt8
    · simp only [hopen, if_true]
      exact List.Subset.refl authority
    · simp only [hopen, if_false]
      exact before_subset ':' authority
  | some parts =>
    obtain ⟨heq, -⟩ := eq_of_bracketed hbr
    intro b hb
    rw [heq]
    exact List.mem_cons_of_mem _ (List.mem_append_left _ hb)

/-- A port that is stated is a number of at most five digits. -/
theorem portOf_cases (authority scheme : Text) : portOf authority scheme = defaultPort scheme ∨
    ∃ n : ℕ, portOf authority scheme = n ∧ n < 10 ^ 5 := by
  rw [portOf, statedPort]
  split
  · rename_i h
    refine Or.inr ⟨_, rfl, (Decimal.value_lt (List.all_eq_true.mp h.2.2)).trans_le ?_⟩
    exact Nat.pow_le_pow_right (by decide) h.2.1
  · exact Or.inl rfl

theorem statedPort_digits {n : ℕ} (h : n < 10 ^ 5) : statedPort (Decimal.digits n) = some n := by
  rw [statedPort, if_pos, Decimal.value_digits]
  exact ⟨Decimal.digits_ne_nil n, (Decimal.length_digits_le_iff (by decide)).mpr h,
    List.all_eq_true.mpr fun b hb => Decimal.isDigit_of_mem_digits hb⟩

section Suffix

variable {scheme host : Text} {port : ℤ}
  (hport : port = defaultPort scheme ∨ ∃ n : ℕ, port = n ∧ n < 10 ^ 5)

include hport

theorem portSuffix_cases : portSuffix scheme port = [] ∧ port = defaultPort scheme ∨
    ∃ n : ℕ, portSuffix scheme port = ':'.toUInt8 :: Decimal.digits n ∧ port = n ∧ n < 10 ^ 5 ∧
      port ≠ defaultPort scheme := by
  rw [portSuffix]
  by_cases hdef : port = defaultPort scheme
  · exact Or.inl ⟨if_neg (not_not_intro hdef), hdef⟩
  · obtain ⟨n, rfl, hn⟩ := hport.resolve_left hdef
    refine Or.inr ⟨n, ?_, rfl, hn, hdef⟩
    rw [if_pos hdef, toText_natCast]
    rfl

theorem mem_portSuffix {b : UInt8} (h : b ∈ portSuffix scheme port) :
    b = ':'.toUInt8 ∨ Decimal.isDigit b = true := by
  rcases portSuffix_cases hport with ⟨hnil, -⟩ | ⟨n, heq, -⟩
  · rw [hnil] at h
    exact absurd h List.not_mem_nil
  · rw [heq] at h
    exact (List.mem_cons.mp h).imp_right Decimal.isDigit_of_mem_digits

/-- A host without colons that does not begin with a bracket is read back with its port. -/
theorem reread_plain (hcolon : ':'.toUInt8 ∉ host) (hopen : host.head? ≠ some '['.toUInt8) :
    hostText (host ++ portSuffix scheme port) = host ∧
      portOf (host ++ portSuffix scheme port) scheme = port := by
  have hhead : (host ++ portSuffix scheme port).head? ≠ some '['.toUInt8 := by
    cases host with
    | nil =>
      rcases portSuffix_cases hport with ⟨hnil, -⟩ | ⟨n, heq, -⟩
      · rw [hnil]
        decide
      · rw [heq]
        exact fun h => absurd (Option.some.inj h) (by decide)
    | cons b host => exact hopen
  have hbr := bracketed_of_head hhead
  rw [hostText, portOf, portText, hbr]
  simp only [if_neg hhead]
  rcases portSuffix_cases hport with ⟨hnil, hdef⟩ | ⟨n, heq, hn, hlt, -⟩
  · rw [hnil, List.append_nil, before_of_not_mem hcolon, behind_of_not_mem hcolon]
    exact ⟨rfl, hdef.symm⟩
  · rw [heq, before_append hcolon, behind_append hcolon, statedPort_digits hlt]
    exact ⟨rfl, hn.symm⟩

omit hport in
/-- With a bracket at its front that is never closed, everything is read as the host. -/
theorem reread_open (hopen : host.head? = some '['.toUInt8) (hclose : ']'.toUInt8 ∉ host)
    (hsuffix : ']'.toUInt8 ∉ portSuffix scheme port) :
    hostText (host ++ portSuffix scheme port) = host ++ portSuffix scheme port ∧
      portOf (host ++ portSuffix scheme port) scheme = defaultPort scheme := by
  obtain ⟨rest, rfl⟩ : ∃ rest, host = '['.toUInt8 :: rest := List.head?_eq_some_iff.mp hopen
  have hnot : ']'.toUInt8 ∉ rest ++ portSuffix scheme port := by
    rw [List.mem_append, not_or]
    exact ⟨fun h => hclose (List.mem_cons_of_mem _ h), hsuffix⟩
  have hbr : bracketed ('['.toUInt8 :: rest ++ portSuffix scheme port) = none := by
    rw [List.cons_append, bracketed, if_pos rfl, Cut.cut_of_not_mem hnot]
  have hhead : ('['.toUInt8 :: rest ++ portSuffix scheme port).head? = some '['.toUInt8 := rfl
  rw [hostText, portOf, portText, hbr]
  simp only [if_pos hhead, true_and]
  rfl

omit hport in
/-- A colon in the host is read as the one before the port. -/
theorem reread_colon (hcolon : ':'.toUInt8 ∈ host) (hopen : host.head? ≠ some '['.toUInt8) :
    hostText (host ++ portSuffix scheme port) ≠ host := by
  obtain ⟨a, b, rfl, ha⟩ := List.eq_append_cons_of_mem hcolon
  have hhead : (a ++ ':'.toUInt8 :: (b ++ portSuffix scheme port)).head? ≠ some '['.toUInt8 := by
    cases a with
    | nil => exact hopen
    | cons x a => exact hopen
  rw [List.append_assoc, List.cons_append, hostText, bracketed_of_head hhead]
  simp only [if_neg hhead]
  rw [before_append ha]
  intro heq
  have hlen := congrArg List.length heq
  rw [List.length_append, List.length_cons] at hlen
  omega

end Suffix

/-- The text that is parsed as the authority of the printed URL. -/
def printedAuthority (raw : Text) : Text :=
  hostText (authorityOf raw) ++ portSuffix (schemeOf raw) (portOf (authorityOf raw) (schemeOf raw))

/-- What is printed is parsed into the same parts, the host and the port apart. -/
theorem urlOf_print (raw : Text) :
    schemeOf (urlToString (urlOf raw)) = schemeOf raw ∧
      authorityOf (urlToString (urlOf raw)) = printedAuthority raw ∧
      (urlOf (urlToString (urlOf raw))).path = (urlOf raw).path ∧
      (urlOf (urlToString (urlOf raw))).query = (urlOf raw).query ∧
      (urlOf (urlToString (urlOf raw))).fragment = (urlOf raw).fragment := by
  obtain ⟨path, hpath, hmem⟩ := pathOf_eq (withoutQuery raw)
  have hprint : urlToString (urlOf raw) = schemeOf raw ++ (schemeEnd ++ (printedAuthority raw ++
      '/'.toUInt8 :: path ++ tail '?' (behind '?' (withoutFragment raw)) ++
      tail '#' (behind '#' (afterScheme raw)))) := by
    rw [← hpath]
    simp only [urlToString, urlOf, printedAuthority, portSuffix, tail, List.append_assoc]
    rfl
  have hport := portOf_cases (authorityOf raw) (schemeOf raw)
  have hauthority : ∀ c ∈ ['/', '?', '#', '@'], c.toUInt8 ∉ printedAuthority raw := by
    intro c hc h
    rcases List.mem_append.mp h with h | h
    · exact not_mem_authority raw c hc (hostText_subset _ h)
    · have hsep : ∀ c ∈ ['/', '?', '#', '@'],
          ¬(c.toUInt8 = ':'.toUInt8 ∨ Decimal.isDigit c.toUInt8 = true) := by
        simp only [List.forall_mem_cons, List.not_mem_nil, false_imp_iff, implies_true, and_true]
        exact ⟨by decide, by decide, by decide, by decide⟩
      exact hsep c hc (mem_portSuffix hport h)
  have hask : '?'.toUInt8 ∉ withoutQuery raw := not_mem_before '?' _
  have hhash : '#'.toUInt8 ∉ withoutFragment raw := not_mem_before '#' _
  have hpathSep : ∀ c ∈ ['?', '#'], c.toUInt8 ∉ path := by
    simp only [List.forall_mem_cons, List.not_mem_nil, false_imp_iff, implies_true, and_true]
    exact ⟨fun h => hask (hmem _ h), fun h => hhash (before_subset '?' _ (hmem _ h))⟩
  obtain ⟨hs, ha, hp, hq, hf⟩ := parts_of_print (cut_scheme raw) hauthority hpathSep
    (fun h => hhash (behind_subset '?' _ h)) _ hprint
  exact ⟨hs, ha, hp.trans hpath.symm, hq, hf⟩

/-! ## When a URL is stable -/

/-- Parsing does not panic, the port is one, and what is printed is parsed into the same parts. -/
def Stable (raw : Text) : Prop :=
  ∃ u, parseUrl raw = .ok u ∧ (0 ≤ u.port ∧ u.port ≤ 65535) ∧
    ∃ v, parseUrl (urlToString u) = .ok v ∧ SameParts v u

theorem port_range_iff (authority scheme : Text) :
    (0 ≤ portOf authority scheme ∧ portOf authority scheme ≤ 65535) ↔
      ∀ n, statedPort (portText authority) = some n → n ≤ 65535 := by
  rw [portOf]
  cases statedPort (portText authority) with
  | none =>
    refine iff_of_true ?_ fun _ h => nomatch h
    rw [Option.map_none, Option.getD_none, defaultPort]
    split <;> decide
  | some n => simp

theorem sameParts_iff (raw : Text) : SameParts (urlOf (urlToString (urlOf raw))) (urlOf raw) ↔
    hostText (printedAuthority raw) = hostText (authorityOf raw) ∧
      portOf (printedAuthority raw) (schemeOf raw) = portOf (authorityOf raw) (schemeOf raw) := by
  obtain ⟨hscheme, hauthority, hpath, hquery, hfragment⟩ := urlOf_print raw
  constructor
  · rintro ⟨-, hhost, hport, -⟩
    rw [urlOf_host, urlOf_host, hauthority] at hhost
    rw [urlOf_port, urlOf_port, hauthority, hscheme] at hport
    exact ⟨hhost, hport⟩
  · rintro ⟨hhost, hport⟩
    refine ⟨hscheme, ?_, ?_, hpath, hquery, hfragment⟩
    · rw [urlOf_host, urlOf_host, hauthority, hhost]
    · rw [urlOf_port, urlOf_port, hauthority, hscheme, hport]

theorem portOf_eq_default_iff (authority scheme : Text) :
    portOf authority scheme = defaultPort scheme ↔
      ∀ n, statedPort (portText authority) = some n → (n : ℤ) = defaultPort scheme := by
  rw [portOf]
  cases statedPort (portText authority) with
  | none => exact iff_of_true rfl fun _ h => nomatch h
  | some n => simp

/-- What is printed between the scheme and the path is read back if the brackets that are lost
were not needed. -/
theorem reread_iff (authority scheme : Text) :
    (hostText (hostText authority ++ portSuffix scheme (portOf authority scheme)) =
        hostText authority ∧
      portOf (hostText authority ++ portSuffix scheme (portOf authority scheme)) scheme =
        portOf authority scheme) ↔
    ∀ host after, bracketed authority = some (host, after) →
      if host.head? = some '['.toUInt8 then
        ∀ n, statedPort (portText authority) = some n → (n : ℤ) = defaultPort scheme
      else ':'.toUInt8 ∉ host := by
  have hport := portOf_cases authority scheme
  rw [← portOf_eq_default_iff]
  cases hbr : bracketed authority with
  | none =>
    refine iff_of_true ?_ fun _ _ h => nomatch h
    by_cases hopen : authority.head? = some '['.toUInt8
    · have hhost : hostText authority = authority := by
        rw [hostText, hbr]
        simp only [if_pos hopen]
      have hdef : portOf authority scheme = defaultPort scheme := by
        rw [portOf, portText, hbr]
        simp only [if_pos hopen]
        rfl
      rw [hdef, portSuffix, if_neg (not_not_intro rfl), hhost, List.append_nil]
      exact ⟨hhost, hdef⟩
    · have hhost : hostText authority = before ':' authority := by
        rw [hostText, hbr]
        simp only [if_neg hopen]
      rw [hhost]
      refine reread_plain hport (not_mem_before ':' authority) fun hhead => hopen ?_
      obtain ⟨t, ht⟩ := before_isPrefix ':' authority
      rw [← ht, List.head?_append, hhead]
      rfl
  | some parts =>
    obtain ⟨host, after⟩ := parts
    obtain ⟨-, hclose⟩ := eq_of_bracketed hbr
    have hhost : hostText authority = host := by rw [hostText, hbr]
    rw [hhost]
    refine Iff.trans (b := if host.head? = some '['.toUInt8 then
      portOf authority scheme = defaultPort scheme else ':'.toUInt8 ∉ host) ?_
      ⟨fun h _ _ heq => ?_, fun h => h host after rfl⟩
    swap
    · cases heq
      exact h
    by_cases hopen : host.head? = some '['.toUInt8
    · have hsuffix : ']'.toUInt8 ∉ portSuffix scheme (portOf authority scheme) := fun h =>
        absurd (mem_portSuffix hport h) (by decide)
      obtain ⟨hh, hp⟩ := reread_open hopen hclose hsuffix
      rw [if_pos hopen, hh, hp]
      refine ⟨fun h => h.2.symm, fun h => ⟨?_, h.symm⟩⟩
      rw [portSuffix, if_neg (not_not_intro h), List.append_nil]
    · rw [if_neg hopen]
      refine ⟨fun h hcolon => reread_colon hcolon hopen h.1, fun hcolon => ?_⟩
      exact reread_plain hport hcolon hopen

/-- The port is one that fits and the URL round-trips exactly when the number behind the host fits,
and brackets enclose a host that needs none: no colon in it, or a bracket at its front and no other
port than the scheme's. -/
theorem stable_iff (raw : Text) : Stable raw ↔
    (∀ n, statedPort (portText (authorityOf raw)) = some n → n ≤ 65535) ∧
      ∀ host after, bracketed (authorityOf raw) = some (host, after) →
        if host.head? = some '['.toUInt8 then
          ∀ n, statedPort (portText (authorityOf raw)) = some n →
            (n : ℤ) = defaultPort (schemeOf raw)
        else ':'.toUInt8 ∉ host := by
  rw [← port_range_iff _ (schemeOf raw), ← reread_iff, ← printedAuthority, ← sameParts_iff]
  constructor
  · rintro ⟨u, hu, hrange, v, hv, hsame⟩
    rw [parseUrl_eq, Except.ok.injEq] at hu
    subst hu
    rw [parseUrl_eq, Except.ok.injEq] at hv
    subst hv
    exact ⟨hrange, hsame⟩
  · rintro ⟨hrange, hsame⟩
    exact ⟨urlOf raw, parseUrl_eq raw, hrange, _, parseUrl_eq _, hsame⟩

/-- `http://[::1]/` is printed without its brackets, and its host is empty the next time. -/
theorem not_stable_bracketed :
    ¬Stable (ascii ['h', 't', 't', 'p', ':', '/', '/', '[', ':', ':', '1', ']', '/']) := by
  rintro ⟨u, hu, -, v, hv, hsame⟩
  rw [parseUrl_eq, Except.ok.injEq] at hu
  subst hu
  rw [parseUrl_eq, Except.ok.injEq] at hv
  subst hv
  exact absurd hsame.host (by decide)

end Kryos.Stdlib.Http
