import Kryos.Lib.FallibleLoop
import Kryos.Stdlib.Url
import Mathlib.Data.List.Nodup

/-!
# Headers and messages in the HTTP library

A header map is two arrays, of keys and of values. `set_header` takes the carriage returns and line
feeds out of both, and replaces the value of a key it finds up to ASCII case. The two serializers
write a start line, the headers and an empty line in front of the body.

## Main results

* `Http.setHeader_cases` — what one `set_header` does to the map
* `Http.Headers.Tidy` — the invariant of every history of `set_header`
* `Http.parseHeaders_headersToString` — the headers are read back in order
* `Http.messages_intact` — a message has one start line and one line for each header
-/

namespace Kryos.Stdlib.Http

open Str

structure Headers where
  keys : List Text
  values : List Text
  deriving DecidableEq

structure Request where
  method : Text
  url : Url
  headers : Headers
  body : Text

structure Response where
  status : ℤ
  statusText : Text
  headers : Headers
  body : Text

def crlf : Text := ['\r'.toUInt8, '\n'.toUInt8]

/-! ## Header maps -/

def newHeaders : Headers := ⟨[], []⟩

/-- The loop of `set_header` over the keys, with `left` more to look at. -/
def setFrom (h : Headers) (ckey cvalue lowerKey : Text) : ℕ → ℕ → Except Failure Headers
  | 0, _ => .ok ⟨h.keys ++ [ckey], h.values ++ [cvalue]⟩
  | left + 1, i => do
    let key ← item h.keys i
    let lower ← toLower key
    if lower = lowerKey then
      let values ← setItem h.values i cvalue
      .ok ⟨h.keys, values⟩
    else setFrom h ckey cvalue lowerKey left (i + 1)

def setHeader (h : Headers) (key value : Text) : Except Failure Headers := do
  let ckey ← stripCrlf key
  let cvalue ← stripCrlf value
  let lowerKey ← toLower ckey
  setFrom h ckey cvalue lowerKey h.keys.length 0

/-- The loop of `get_header`. -/
def getFrom (h : Headers) (lowerKey : Text) : ℕ → ℕ → Except Failure Text
  | 0, _ => .ok []
  | left + 1, i => do
    let key ← item h.keys i
    let lower ← toLower key
    if lower = lowerKey then item h.values i else getFrom h lowerKey left (i + 1)

def getHeader (h : Headers) (key : Text) : Except Failure Text := do
  let lowerKey ← toLower key
  getFrom h lowerKey h.keys.length 0

def hasHeader (h : Headers) (key : Text) : Except Failure Bool :=
  (getHeader h key).map fun value => decide (value.length > 0)

/-- The loop of `headers_to_string`. -/
def writeFrom (h : Headers) : ℕ → ℕ → Text → Except Failure Text
  | 0, _, result => .ok result
  | left + 1, i, result => do
    let key ← item h.keys i
    let value ← item h.values i
    writeFrom h left (i + 1) (result ++ key ++ ascii [':', ' '] ++ value ++ crlf)

def headersToString (h : Headers) : Except Failure Text := writeFrom h h.keys.length 0 []

/-- One line of `parse_headers`. -/
def parseLine (headers : Headers) (line : Text) : Except Failure Headers := do
  match ← find line [':'.toUInt8] with
  | none => .ok headers
  | some colon =>
    let key ← substring line 0 colon
    let space ←
      if colon + 1 < line.length then substring line (colon + 1) (colon + 1 + 1) else .ok []
    let vstart := if space = [' '.toUInt8] then colon + 1 + 1 else colon + 1
    let value ← substring line vstart line.length
    setHeader headers key value

/-- The loop of `parse_headers`. -/
def parseLines (headers : Headers) : List Text → Except Failure Headers
  | [] => .ok headers
  | line :: lines => do
    let headers ← parseLine headers line
    parseLines headers lines

def parseHeaders (raw : Text) : Except Failure Headers := do
  let lines ← split raw crlf
  parseLines newHeaders lines

/-! ## Messages -/

def hostKey : Text := ascii ['H', 'o', 's', 't']

def userAgentKey : Text := ascii ['U', 's', 'e', 'r', '-', 'A', 'g', 'e', 'n', 't']

def acceptKey : Text := ascii ['A', 'c', 'c', 'e', 'p', 't']

def connectionKey : Text := ascii ['C', 'o', 'n', 'n', 'e', 'c', 't', 'i', 'o', 'n']

def contentLengthKey : Text :=
  ascii ['C', 'o', 'n', 't', 'e', 'n', 't', '-', 'L', 'e', 'n', 'g', 't', 'h']

def contentTypeKey : Text := ascii ['C', 'o', 'n', 't', 'e', 'n', 't', '-', 'T', 'y', 'p', 'e']

def kryosHttp : Text :=
  ascii ['k', 'r', 'y', 'o', 's', '-', 'h', 't', 't', 'p', '/', '1', '.', '0']

def octetStream : Text :=
  ascii (['a', 'p', 'p', 'l', 'i', 'c', 'a', 't', 'i', 'o', 'n', '/'] ++
    ['o', 'c', 't', 'e', 't', '-', 's', 't', 'r', 'e', 'a', 'm'])

def applicationJson : Text :=
  ascii ['a', 'p', 'p', 'l', 'i', 'c', 'a', 't', 'i', 'o', 'n', '/', 'j', 's', 'o', 'n']

def httpVersion : Text := ascii ['H', 'T', 'T', 'P', '/', '1', '.', '1']

def newRequest (method urlStr : Text) : Except Failure Request := do
  let u ← parseUrl urlStr
  let headers ← setHeader newHeaders hostKey u.host
  let headers ← setHeader headers userAgentKey kryosHttp
  let headers ← setHeader headers acceptKey (ascii ['*', '/', '*'])
  let headers ← setHeader headers connectionKey (ascii ['c', 'l', 'o', 's', 'e'])
  return { method, url := u, headers, body := [] }

def withBody (req : Request) (body : Text) : Except Failure Request := do
  let headers ← setHeader req.headers contentLengthKey (toText body.length)
  if ← hasHeader headers contentTypeKey then return { req with headers, body }
  else
    let headers ← setHeader headers contentTypeKey octetStream
    return { req with headers, body }

def withJsonBody (req : Request) (body : Text) : Except Failure Request := do
  let headers ← setHeader req.headers contentTypeKey applicationJson
  let headers ← setHeader headers contentLengthKey (toText body.length)
  return { req with headers, body }

/-- The path and the query of the request line. -/
def requestPath (u : Url) : Except Failure Text := do
  let path ← stripCrlf u.path
  if u.query.length > 0 then
    let query ← stripCrlf u.query
    .ok (path ++ ['?'.toUInt8] ++ query)
  else .ok path

def serializeRequest (req : Request) : Except Failure Text := do
  let path ← requestPath req.url
  let method ← stripCrlf req.method
  let headers ← headersToString req.headers
  return method ++ [' '.toUInt8] ++ path ++ ([' '.toUInt8] ++ httpVersion ++ crlf) ++ headers ++
    crlf ++ (if req.body.length > 0 then req.body else [])

def serializeResponse (resp : Response) : Except Failure Text := do
  let statusText ← stripCrlf resp.statusText
  let headers ← if ← hasHeader resp.headers contentLengthKey then .ok resp.headers
    else setHeader resp.headers contentLengthKey (toText resp.body.length)
  let written ← headersToString headers
  return httpVersion ++ [' '.toUInt8] ++ toText resp.status ++ [' '.toUInt8] ++ statusText ++
    crlf ++ written ++ crlf ++ resp.body

/-! ## Histories -/

/-- A call on a request. -/
inductive Call where
  | setHeader (key value : Text)
  | withBody (body : Text)
  | withJsonBody (body : Text)

def Call.run (req : Request) : Call → Except Failure Request
  | .setHeader key value => (Http.setHeader req.headers key value).map fun headers =>
    { req with headers }
  | .withBody body => Http.withBody req body
  | .withJsonBody body => Http.withJsonBody req body

/-- The header map after these `set_header` calls. -/
def buildHeaders (sets : List (Text × Text)) : Except Failure Headers :=
  sets.foldlM (fun h entry => setHeader h entry.1 entry.2) newHeaders

/-- The request after these calls. -/
def buildRequest (method urlStr : Text) (calls : List Call) : Except Failure Request := do
  let req ← newRequest method urlStr
  calls.foldlM Call.run req

/-! ## What a call does to the map -/

/-- The text up to ASCII case. -/
def lower (t : Text) : Text := t.map lowerByte

/-- The text without carriage returns and line feeds. -/
def clean (t : Text) : Text := t.filter fun b => !isCrlf b

/-- Nothing in the text ends a line. -/
def OneLine (t : Text) : Prop := ∀ b ∈ t, isCrlf b = false

variable {h : Headers} {key value : Text}

theorem oneLine_clean (t : Text) : OneLine (clean t) := fun b hb => by
  have := List.of_mem_filter hb
  rwa [Bool.not_eq_eq_eq_not, Bool.not_true] at this

theorem clean_of_oneLine {t : Text} (ht : OneLine t) : clean t = t :=
  List.filter_eq_self.mpr fun b hb => by rw [ht b hb]; rfl

theorem oneLine_of_all {t : Text} (ht : t.all (fun b => !isCrlf b) = true) : OneLine t :=
  fun b hb => by
    have := List.all_eq_true.mp ht b hb
    rwa [Bool.not_eq_eq_eq_not, Bool.not_true] at this

theorem OneLine.append {a b : Text} (ha : OneLine a) (hb : OneLine b) : OneLine (a ++ b) :=
  fun x hx => (List.mem_append.mp hx).elim (ha x) (hb x)

/-- The loop of `set_header` stops at the first key that is the same up to ASCII case. -/
theorem setFrom_cases (hlen : h.keys.length = h.values.length) (ckey cvalue lowerKey : Text) :
    ∀ left i, i + left = h.keys.length → (∀ k ∈ h.keys.take i, lower k ≠ lowerKey) →
    ∃ h', setFrom h ckey cvalue lowerKey left i = .ok h' ∧
      ((∃ j, ∃ hj : j < h.keys.length, lower h.keys[j] = lowerKey ∧
          h' = ⟨h.keys, h.values.set j cvalue⟩) ∨
        (∀ k ∈ h.keys, lower k ≠ lowerKey) ∧ h' = ⟨h.keys ++ [ckey], h.values ++ [cvalue]⟩)
  | 0, i, hi, hbefore => by
    rw [List.take_of_length_le (by omega)] at hbefore
    exact ⟨_, rfl, Or.inr ⟨hbefore, rfl⟩⟩
  | left + 1, i, hi, hbefore => by
    have hlt : i < h.keys.length := by omega
    rw [setFrom, item_ok hlt, ok_bind, toLower_eq, ok_bind, ← lower]
    by_cases heq : lower h.keys[i] = lowerKey
    · rw [if_pos heq, setItem, if_pos (hlen ▸ hlt), ok_bind]
      exact ⟨_, rfl, Or.inl ⟨i, hlt, heq, rfl⟩⟩
    · rw [if_neg heq]
      refine setFrom_cases hlen ckey cvalue lowerKey left (i + 1) (by omega) fun k hk => ?_
      rw [List.take_succ_eq_append_getElem hlt] at hk
      rcases List.mem_append.mp hk with hk | hk
      · exact hbefore k hk
      · rwa [List.mem_singleton.mp hk]

/-- What one `set_header` does: it replaces the value of a key that is the same up to ASCII case, or
adds the key and the value at the end. -/
theorem setHeader_cases (hlen : h.keys.length = h.values.length) (key value : Text) :
    ∃ h', setHeader h key value = .ok h' ∧
      ((∃ j, ∃ hj : j < h.keys.length, lower h.keys[j] = lower (clean key) ∧
          h' = ⟨h.keys, h.values.set j (clean value)⟩) ∨
        (∀ k ∈ h.keys, lower k ≠ lower (clean key)) ∧
          h' = ⟨h.keys ++ [clean key], h.values ++ [clean value]⟩) := by
  rw [setHeader, stripCrlf_eq, ok_bind, stripCrlf_eq, ok_bind, toLower_eq, ok_bind]
  exact setFrom_cases hlen _ _ _ _ 0 (Nat.zero_add _) fun _ hk => absurd hk List.not_mem_nil

/-- What every history of `set_header` keeps. -/
structure Headers.Tidy (h : Headers) : Prop where
  length_eq : h.keys.length = h.values.length
  /-- no two keys are the same up to ASCII case -/
  nodup : (h.keys.map lower).Nodup
  keys_oneLine : ∀ k ∈ h.keys, OneLine k
  values_oneLine : ∀ v ∈ h.values, OneLine v

theorem tidy_newHeaders : newHeaders.Tidy where
  length_eq := rfl
  nodup := List.nodup_nil
  keys_oneLine _ hk := absurd hk List.not_mem_nil
  values_oneLine _ hv := absurd hv List.not_mem_nil

/-- One `set_header` keeps the invariant. -/
theorem Headers.Tidy.set (ht : h.Tidy) (key value : Text) :
    ∃ h', setHeader h key value = .ok h' ∧ h'.Tidy := by
  obtain ⟨h', hset, ⟨j, hj, -, rfl⟩ | ⟨hnew, rfl⟩⟩ := setHeader_cases ht.length_eq key value
  · refine ⟨_, hset, ?_, ht.nodup, ht.keys_oneLine, fun v hv => ?_⟩
    · exact ht.length_eq.trans (List.length_set).symm
    · rcases List.mem_or_eq_of_mem_set hv with hv | rfl
      · exact ht.values_oneLine v hv
      · exact oneLine_clean value
  · refine ⟨_, hset, ?_, ?_, ?_, ?_⟩
    · simp only [List.length_append, List.length_singleton, ht.length_eq]
    · rw [List.map_append, List.map_singleton, List.nodup_append]
      refine ⟨ht.nodup, List.nodup_singleton _, fun a ha b hb => ?_⟩
      obtain ⟨k, hk, rfl⟩ := List.mem_map.mp ha
      rw [List.mem_singleton.mp hb]
      exact hnew k hk
    · intro k hk
      rcases List.mem_append.mp hk with hk | hk
      · exact ht.keys_oneLine k hk
      · rw [List.mem_singleton.mp hk]
        exact oneLine_clean key
    · intro v hv
      rcases List.mem_append.mp hv with hv | hv
      · exact ht.values_oneLine v hv
      · rw [List.mem_singleton.mp hv]
        exact oneLine_clean value

theorem tidy_buildHeaders (sets : List (Text × Text)) :
    ∃ h, buildHeaders sets = .ok h ∧ h.Tidy :=
  List.foldlM_ok_of_step (fun _ h => Headers.Tidy h) tidy_newHeaders fun _ entry _ _ _ ht =>
    ht.set entry.1 entry.2

/-! ## Writing and reading the header lines -/

def headerLine (key value : Text) : Text := key ++ ascii [':', ' '] ++ value

/-- The header lines of the map, in order. -/
def Headers.lines (h : Headers) : List Text := List.zipWith headerLine h.keys h.values

theorem Headers.Tidy.length_lines (ht : h.Tidy) : h.lines.length = h.keys.length := by
  rw [Headers.lines, List.length_zipWith, ← ht.length_eq, Nat.min_self]

/-- Lines, each with its terminator. -/
def terminated (lines : List Text) : Text := (lines.map fun line => line ++ crlf).flatten

theorem writeFrom_eq (ht : h.Tidy) : ∀ left i result, i + left = h.keys.length →
    writeFrom h left i result = .ok (result ++ terminated (h.lines.drop i))
  | 0, i, result, hi => by
    have hnil : h.lines.drop i = [] := by
      rw [List.drop_eq_nil_iff, ht.length_lines]
      omega
    rw [writeFrom, hnil]
    exact congrArg _ (List.append_nil result).symm
  | left + 1, i, result, hi => by
    have hlt : i < h.keys.length := by omega
    have hvlt : i < h.values.length := ht.length_eq ▸ hlt
    have hllt : i < h.lines.length := ht.length_lines.symm ▸ hlt
    have hline : h.lines[i] = headerLine h.keys[i] h.values[i] := List.getElem_zipWith
    rw [writeFrom, item_ok hlt, ok_bind, item_ok hvlt, ok_bind,
      writeFrom_eq ht left (i + 1) _ (by omega), List.drop_eq_getElem_cons hllt, hline]
    simp only [terminated, headerLine, List.map_cons, List.flatten_cons, List.append_assoc]

theorem headersToString_eq (ht : h.Tidy) : headersToString h = .ok (terminated h.lines) := by
  rw [headersToString, writeFrom_eq ht _ 0 _ (Nat.zero_add _), List.drop_zero, List.nil_append]

theorem oneLine_headerLine (hk : OneLine key) (hv : OneLine value) :
    OneLine (headerLine key value) :=
  (hk.append (oneLine_of_all rfl)).append hv

theorem exists_of_mem_lines {line : Text} (hline : line ∈ h.lines) :
    ∃ k ∈ h.keys, ∃ v ∈ h.values, line = headerLine k v := by
  obtain ⟨i, hi, rfl⟩ := List.mem_iff_getElem.mp hline
  exact ⟨_, List.getElem_mem _, _, List.getElem_mem _, List.getElem_zipWith⟩

theorem Headers.Tidy.oneLine_lines (ht : h.Tidy) : ∀ line ∈ h.lines, OneLine line := by
  intro line hline
  obtain ⟨k, hk, v, hv, rfl⟩ := exists_of_mem_lines hline
  exact oneLine_headerLine (ht.keys_oneLine _ hk) (ht.values_oneLine _ hv)

theorem headerLine_ne_nil (key value : Text) : headerLine key value ≠ [] :=
  List.append_ne_nil_of_left_ne_nil (List.append_ne_nil_of_right_ne_nil _ (List.cons_ne_nil _ _)) _

theorem not_mem_of_oneLine {line : Text} (hline : OneLine line) : '\r'.toUInt8 ∉ line :=
  fun hmem => absurd (hline _ hmem) (by decide)

theorem pieces_terminated {lines : List Text} (hlines : ∀ line ∈ lines, OneLine line)
    (rest : Text) :
    Cut.pieces crlf (terminated lines ++ rest) = lines ++ Cut.pieces crlf rest :=
  Cut.pieces_flatten (fun line hline => not_mem_of_oneLine (hlines line hline)) rest

/-- A header line is read as its key and its value. -/
theorem parseLine_headerLine (hk : ':'.toUInt8 ∉ key) (headers : Headers) (value : Text) :
    parseLine headers (headerLine key value) = setHeader headers key value := by
  have hcolon : [':'.toUInt8] ≠ [] := List.cons_ne_nil _ _
  have hline : headerLine key value = key ++ ':'.toUInt8 :: ([' '.toUInt8] ++ value) := by
    rw [headerLine, List.append_assoc]
    rfl
  have hlen : key.length + 1 + 1 ≤ (headerLine key value).length := by
    rw [hline]
    simp only [List.length_append, List.length_cons, List.length_nil]
    omega
  have hspace : substring (headerLine key value) (key.length + 1) (key.length + 1 + 1) =
      .ok [' '.toUInt8] := by
    rw [substring_ok (Nat.le_succ _) hlen]
    refine congrArg _ (slice_of_drop_eq (a := [' '.toUInt8]) (b := value) ?_)
    rw [hline, ← List.drop_drop, List.drop_left]
    rfl
  have hvalue : substring (headerLine key value) (key.length + 1 + 1)
      (headerLine key value).length = .ok value := by
    rw [substring_from hlen, hline, Nat.add_assoc, ← List.drop_drop, List.drop_left]
    rfl
  have hkey : substring (headerLine key value) 0 key.length = .ok key := by
    rw [substring_to (by omega), hline, List.take_left]
  rw [parseLine, find_eq hcolon, ok_bind]
  have hcut : Cut.cut [':'.toUInt8] (headerLine key value) =
      some (key, [' '.toUInt8] ++ value) := by
    rw [hline]
    exact Cut.cut_singleton hk _
  simp only [hcut, Option.map_some]
  rw [hkey, ok_bind, if_pos (Nat.lt_of_succ_le hlen), hspace, ok_bind, if_pos rfl, hvalue, ok_bind]

/-- The lines of headers with new keys are read into the map one after another. -/
theorem parseLines_eq (headers : Headers) (hlen : headers.keys.length = headers.values.length) :
    ∀ {keys values : List Text}, keys.length = values.length →
    ((headers.keys ++ keys).map lower).Nodup → (∀ k ∈ keys, OneLine k ∧ ':'.toUInt8 ∉ k) →
    (∀ v ∈ values, OneLine v) →
    parseLines headers (List.zipWith headerLine keys values ++ [[]]) =
      .ok ⟨headers.keys ++ keys, headers.values ++ values⟩
  | [], [], _, _, _, _ => by
    rw [List.append_nil, List.append_nil]
    rfl
  | k :: keys, v :: values, hlen', hnodup, hkeys, hvalues => by
    obtain ⟨⟨hk, hcolon⟩, hkeys⟩ := List.forall_mem_cons.mp hkeys
    obtain ⟨hv, hvalues⟩ := List.forall_mem_cons.mp hvalues
    have hnew : ∀ k' ∈ headers.keys, lower k' ≠ lower k := by
      intro k' hk' heq
      rw [List.map_append, List.map_cons, List.nodup_append] at hnodup
      exact hnodup.2.2 _ (List.mem_map_of_mem hk') _ List.mem_cons_self heq
    have hset : setHeader headers k v = .ok ⟨headers.keys ++ [k], headers.values ++ [v]⟩ := by
      obtain ⟨h', hset, ⟨j, hj, heq, -⟩ | ⟨-, rfl⟩⟩ := setHeader_cases hlen k v
      · rw [clean_of_oneLine hk] at heq
        exact absurd heq (hnew _ (List.getElem_mem hj))
      · rwa [clean_of_oneLine hk, clean_of_oneLine hv] at hset
    have ih := parseLines_eq ⟨headers.keys ++ [k], headers.values ++ [v]⟩
      (by simp only [List.length_append, List.length_singleton, hlen]) (Nat.succ.inj hlen')
      (by rwa [List.append_assoc, List.singleton_append]) hkeys hvalues
    rw [List.append_assoc, List.append_assoc] at ih
    rw [List.zipWith_cons_cons, List.cons_append, parseLines, parseLine_headerLine hcolon, hset,
      ok_bind]
    exact ih

/-- The headers are read back, key for key and value for value. -/
theorem parseHeaders_headersToString (ht : h.Tidy) (hkeys : ∀ k ∈ h.keys, ':'.toUInt8 ∉ k) :
    parseHeaders (terminated h.lines) = .ok h := by
  have hne : crlf ≠ [] := List.cons_ne_nil _ _
  have hempty : Cut.pieces crlf [] = [[]] := Cut.pieces_of_cut_eq_none rfl
  have hpieces := pieces_terminated ht.oneLine_lines []
  rw [List.append_nil, hempty] at hpieces
  rw [parseHeaders, split_eq hne, ok_bind, hpieces]
  exact parseLines_eq newHeaders rfl ht.length_eq ht.nodup
    (fun k hk => ⟨ht.keys_oneLine k hk, hkeys k hk⟩) ht.values_oneLine

/-! ## Messages -/

theorem getFrom_ok (hlen : h.keys.length = h.values.length) (lowerKey : Text) :
    ∀ left i, i + left = h.keys.length → ∃ value, getFrom h lowerKey left i = .ok value
  | 0, _, _ => ⟨[], rfl⟩
  | left + 1, i, hi => by
    have hlt : i < h.keys.length := by omega
    rw [getFrom, item_ok hlt, ok_bind, toLower_eq, ok_bind]
    split
    · exact ⟨_, item_ok (hlen ▸ hlt)⟩
    · exact getFrom_ok hlen lowerKey left (i + 1) (by omega)

theorem hasHeader_ok (hlen : h.keys.length = h.values.length) (key : Text) :
    ∃ found, hasHeader h key = .ok found := by
  obtain ⟨value, hget⟩ := getFrom_ok hlen (key.map lowerByte) _ 0 (Nat.zero_add _)
  rw [hasHeader, getHeader, toLower_eq, ok_bind, hget]
  exact ⟨_, rfl⟩

/-- What is in front of the first empty line. -/
def headLines (msg : Text) : List Text := (Cut.pieces crlf msg).takeWhile (· ≠ [])

/-- The message is a start line, one line for each header and an empty line in front of the body;
these lines are what is read up to the first empty line, and none holds a carriage return or a line
feed. -/
def Framed (msg : Text) (headers : Headers) (body : Text) : Prop :=
  ∃ start, msg = terminated (start :: headers.lines) ++ (crlf ++ body) ∧
    headLines msg = start :: headers.lines ∧ (∀ line ∈ headLines msg, OneLine line) ∧
    headers.lines.length = headers.keys.length

theorem framed (ht : h.Tidy) {start : Text} (hstart : OneLine start) (hne : start ≠ [])
    (body : Text) : Framed (terminated (start :: h.lines) ++ (crlf ++ body)) h body := by
  have hlines : ∀ line ∈ start :: h.lines, OneLine line :=
    List.forall_mem_cons.mpr ⟨hstart, ht.oneLine_lines⟩
  have hne : ∀ line ∈ start :: h.lines, decide (line ≠ []) = true := by
    refine List.forall_mem_cons.mpr ⟨decide_eq_true hne, fun line hline => decide_eq_true ?_⟩
    obtain ⟨k, -, v, -, rfl⟩ := exists_of_mem_lines hline
    exact headerLine_ne_nil k v
  have hempty : Cut.pieces crlf (crlf ++ body) = [] :: Cut.pieces crlf body :=
    Cut.pieces_of_cut (List.cons_ne_nil _ _) (Cut.cut_line List.not_mem_nil body)
  have hhead : headLines (terminated (start :: h.lines) ++ (crlf ++ body)) = start :: h.lines := by
    rw [headLines, pieces_terminated hlines, hempty, List.takeWhile_append_of_pos hne,
      List.takeWhile_cons_of_neg (by decide), List.append_nil]
  exact ⟨start, rfl, hhead, fun line hline => hlines line (hhead ▸ hline), ht.length_lines⟩

theorem requestPath_ok (u : Url) : ∃ path, requestPath u = .ok path ∧ OneLine path := by
  have hask : OneLine ['?'.toUInt8] := oneLine_of_all rfl
  rw [requestPath, stripCrlf_eq, ok_bind, ← clean]
  split
  · rw [stripCrlf_eq, ok_bind, ← clean]
    exact ⟨_, rfl, ((oneLine_clean _).append hask).append (oneLine_clean _)⟩
  · exact ⟨_, rfl, oneLine_clean _⟩

theorem oneLine_version : OneLine httpVersion := oneLine_of_all rfl

theorem oneLine_space : OneLine [' '.toUInt8] := oneLine_of_all rfl

theorem oneLine_toText (n : ℤ) : OneLine (toText n) := by
  have hdigits : OneLine (Decimal.digits n.natAbs) := fun b hb => by
    by_contra hcrlf
    rw [Bool.not_eq_false, isCrlf, decide_eq_true_eq] at hcrlf
    have hdigit := Decimal.isDigit_of_mem_digits hb
    rcases hcrlf with rfl | rfl
    · exact absurd hdigit (by decide)
    · exact absurd hdigit (by decide)
  rw [toText]
  split
  · exact List.forall_mem_cons.mpr ⟨by decide, hdigits⟩
  · exact hdigits

theorem serializeRequest_framed {req : Request} (ht : req.headers.Tidy) :
    ∃ msg, serializeRequest req = .ok msg ∧ Framed msg req.headers req.body := by
  obtain ⟨path, hrun, hpath⟩ := requestPath_ok req.url
  have hstart : OneLine (clean req.method ++ [' '.toUInt8] ++ path ++
      ([' '.toUInt8] ++ httpVersion)) :=
    (((oneLine_clean _).append oneLine_space).append hpath).append
      (oneLine_space.append oneLine_version)
  have hne : clean req.method ++ [' '.toUInt8] ++ path ++ ([' '.toUInt8] ++ httpVersion) ≠ [] :=
    List.append_ne_nil_of_right_ne_nil _ (List.cons_ne_nil _ _)
  have hbody : (if req.body.length > 0 then req.body else []) = req.body := by
    split
    · rfl
    · rename_i hlen
      exact (List.length_eq_zero_iff.mp (Nat.eq_zero_of_not_pos hlen)).symm
  refine ⟨_, ?_, framed ht hstart hne req.body⟩
  rw [serializeRequest, hrun, ok_bind, stripCrlf_eq, ok_bind, headersToString_eq ht, ok_bind, hbody]
  simp only [terminated, List.map_cons, List.flatten_cons, List.append_assoc]
  rfl

theorem serializeResponse_framed (resp : Response) (ht : resp.headers.Tidy) :
    ∃ msg headers, serializeResponse resp = .ok msg ∧ headers.Tidy ∧
      (headers = resp.headers ∨ setHeader resp.headers contentLengthKey (toText resp.body.length) =
        .ok headers) ∧ Framed msg headers resp.body := by
  have hstart : OneLine (httpVersion ++ [' '.toUInt8] ++ toText resp.status ++ [' '.toUInt8] ++
      clean resp.statusText) :=
    (((oneLine_version.append oneLine_space).append (oneLine_toText _)).append
      oneLine_space).append (oneLine_clean _)
  have hne : httpVersion ++ [' '.toUInt8] ++ toText resp.status ++ [' '.toUInt8] ++
      clean resp.statusText ≠ [] := List.cons_ne_nil _ _
  obtain ⟨found, hfound⟩ := hasHeader_ok ht.length_eq contentLengthKey
  obtain ⟨h₁, hset₁, ht₁⟩ := ht.set contentLengthKey (toText resp.body.length)
  cases found with
  | true =>
    refine ⟨_, resp.headers, ?_, ht, Or.inl rfl, framed ht hstart hne resp.body⟩
    rw [serializeResponse, stripCrlf_eq, ok_bind, hfound, ok_bind, if_pos rfl, ok_bind]
    beta_reduce
    rw [headersToString_eq ht, ok_bind]
    simp only [terminated, List.map_cons, List.flatten_cons, List.append_assoc]
    rfl
  | false =>
    refine ⟨_, h₁, ?_, ht₁, Or.inr hset₁, framed ht₁ hstart hne resp.body⟩
    rw [serializeResponse, stripCrlf_eq, ok_bind, hfound, ok_bind, if_neg Bool.false_ne_true,
      hset₁, ok_bind]
    beta_reduce
    rw [headersToString_eq ht₁, ok_bind]
    simp only [terminated, List.map_cons, List.flatten_cons, List.append_assoc]
    rfl

theorem newRequest_tidy (method urlStr : Text) :
    ∃ req, newRequest method urlStr = .ok req ∧ req.headers.Tidy := by
  obtain ⟨h₁, hset₁, ht₁⟩ := tidy_newHeaders.set hostKey (urlOf urlStr).host
  obtain ⟨h₂, hset₂, ht₂⟩ := ht₁.set userAgentKey kryosHttp
  obtain ⟨h₃, hset₃, ht₃⟩ := ht₂.set acceptKey (ascii ['*', '/', '*'])
  obtain ⟨h₄, hset₄, ht₄⟩ := ht₃.set connectionKey (ascii ['c', 'l', 'o', 's', 'e'])
  refine ⟨{ method, url := urlOf urlStr, headers := h₄, body := [] }, ?_, ht₄⟩
  rw [newRequest, parseUrl_eq, ok_bind, hset₁, ok_bind, hset₂, ok_bind, hset₃, ok_bind, hset₄]
  rfl

/-- Every call on a request succeeds and keeps the invariant of its headers. -/
theorem Call.run_tidy {req : Request} (ht : req.headers.Tidy) (call : Call) :
    ∃ req', call.run req = .ok req' ∧ req'.headers.Tidy := by
  cases call with
  | setHeader key value =>
    obtain ⟨h', hset, ht'⟩ := ht.set key value
    exact ⟨_, by rw [Call.run, hset]; rfl, ht'⟩
  | withBody body =>
    obtain ⟨h₁, hset₁, ht₁⟩ := ht.set contentLengthKey (toText body.length)
    obtain ⟨found, hfound⟩ := hasHeader_ok ht₁.length_eq contentTypeKey
    obtain ⟨h₂, hset₂, ht₂⟩ := ht₁.set contentTypeKey octetStream
    rw [Call.run, Http.withBody, hset₁, ok_bind, hfound, ok_bind]
    cases found with
    | true => exact ⟨_, rfl, ht₁⟩
    | false => exact ⟨_, by rw [if_neg Bool.false_ne_true, hset₂]; rfl, ht₂⟩
  | withJsonBody body =>
    obtain ⟨h₁, hset₁, ht₁⟩ := ht.set contentTypeKey applicationJson
    obtain ⟨h₂, hset₂, ht₂⟩ := ht₁.set contentLengthKey (toText body.length)
    exact ⟨_, by rw [Call.run, Http.withJsonBody, hset₁, ok_bind, hset₂]; rfl, ht₂⟩

theorem buildRequest_tidy (method urlStr : Text) (calls : List Call) :
    ∃ req, buildRequest method urlStr calls = .ok req ∧ req.headers.Tidy := by
  obtain ⟨req, hnew, ht⟩ := newRequest_tidy method urlStr
  rw [buildRequest, hnew, ok_bind]
  exact List.foldlM_ok_of_step (fun _ (r : Request) => r.headers.Tidy) ht fun _ call _ _ _ hr =>
    Call.run_tidy hr call

/-- The keys of a built map come from the keys that were set. -/
theorem keys_of_buildHeaders {c : Char} {sets : List (Text × Text)}
    (hsets : ∀ entry ∈ sets, c.toUInt8 ∉ entry.1) :
    ∃ h, buildHeaders sets = .ok h ∧ h.Tidy ∧ ∀ k ∈ h.keys, c.toUInt8 ∉ k := by
  refine List.foldlM_ok_of_step
    (fun _ (h : Headers) => h.Tidy ∧ ∀ k ∈ h.keys, c.toUInt8 ∉ k)
    ⟨tidy_newHeaders, fun k hk => absurd hk List.not_mem_nil⟩ fun pre entry post h hsplit hh => ?_
  obtain ⟨ht, hkeys⟩ := hh
  obtain ⟨h', hset, ht'⟩ := ht.set entry.1 entry.2
  refine ⟨h', hset, ht', ?_⟩
  obtain ⟨h'', hset', ⟨j, hj, -, rfl⟩ | ⟨-, rfl⟩⟩ := setHeader_cases ht.length_eq entry.1 entry.2
  · rw [hset, Except.ok.injEq] at hset'
    rw [hset']
    exact hkeys
  · rw [hset, Except.ok.injEq] at hset'
    rw [hset']
    intro k hk
    rcases List.mem_append.mp hk with hk | hk
    · exact hkeys k hk
    · rw [List.mem_singleton.mp hk]
      refine fun hc => hsets entry ?_ (List.mem_of_mem_filter hc)
      rw [hsplit]
      exact List.mem_append_right _ List.mem_cons_self

/-- Nothing in a method, a URL, a header, a status text or a body adds a line to the head of a
message; the keys of a map are unique up to ASCII case; and a map whose keys have no colon is read
back from its text. -/
theorem messages_intact :
    (∀ method urlStr calls, ∃ req msg, buildRequest method urlStr calls = .ok req ∧
      serializeRequest req = .ok msg ∧ Framed msg req.headers req.body ∧
      (req.headers.keys.map lower).Nodup) ∧
    (∀ status statusText sets body, ∃ headers, buildHeaders sets = .ok headers ∧
      ∃ msg sent, serializeResponse { status, statusText, headers, body } = .ok msg ∧
        (sent = headers ∨ setHeader headers contentLengthKey (toText body.length) = .ok sent) ∧
        Framed msg sent body ∧ (sent.keys.map lower).Nodup) ∧
    ∀ sets, ∃ h, buildHeaders sets = .ok h ∧ (h.keys.map lower).Nodup ∧
      ((∀ entry ∈ sets, ':'.toUInt8 ∉ entry.1) →
        ∃ raw, headersToString h = .ok raw ∧ parseHeaders raw = .ok h) := by
  refine ⟨fun method urlStr calls => ?_, fun status statusText sets body => ?_, fun sets => ?_⟩
  · obtain ⟨req, hbuild, ht⟩ := buildRequest_tidy method urlStr calls
    obtain ⟨msg, hmsg, hframed⟩ := serializeRequest_framed ht
    exact ⟨req, msg, hbuild, hmsg, hframed, ht.nodup⟩
  · obtain ⟨headers, hbuild, ht⟩ := tidy_buildHeaders sets
    obtain ⟨msg, sent, hmsg, hsent, hset, hframed⟩ :=
      serializeResponse_framed { status, statusText, headers, body } ht
    exact ⟨headers, hbuild, msg, sent, hmsg, hset, hframed, hsent.nodup⟩
  · obtain ⟨h, hbuild, ht⟩ := tidy_buildHeaders sets
    refine ⟨h, hbuild, ht.nodup, fun hsets => ⟨_, headersToString_eq ht, ?_⟩⟩
    obtain ⟨h', hbuild', -, hkeys⟩ := keys_of_buildHeaders hsets
    rw [hbuild, Except.ok.injEq] at hbuild'
    exact parseHeaders_headersToString ht (hbuild' ▸ hkeys)

end Kryos.Stdlib.Http
