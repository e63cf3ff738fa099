import Kryos.Stdlib.Str

/-!
# JSON in the standard library

`std.json` is written in the language itself: a recursive descent parser over byte positions, a
compact and an indenting printer, and accessors. A number that is written as an integer and fits in
64 bits is kept exactly; all others are floats, which the model leaves open.

The language has no escapes `\b` and `\f`: such a literal is the backslash and the letter.

## Main results

* `StdJson.get_set` — what is set is what is found, and nothing else changes
-/

namespace Kryos.Stdlib.StdJson

open Str

inductive JsonValue (F : Type) where
  | null
  | bool (b : Bool)
  | number (n : F)
  | int (i : ℤ)
  | string (s : Text)
  | array (items : List (JsonValue F))
  | object (keys : List Text) (values : List (JsonValue F))

/-- The operations on floats. -/
structure Floats (F : Type) where
  /-- `float` of a text -/
  parse : Text → Except Failure F
  eq : F → F → Bool
  inf : F
  negInf : F
  /-- `int` of a float -/
  toInt : F → ℤ
  /-- `float` of an integer -/
  ofInt : ℤ → F
  toText : F → Text

variable {F : Type}

/-- A message. -/
def text (s : String) : Text := s.toUTF8.toList

/-- `char_code` of a text of at most one byte -/
def charCode : Text → ℕ
  | [] => 0
  | b :: _ => b.toNat

/-- `char_from`, which is empty for what is no character -/
def charFrom (n : ℕ) : Text :=
  if n.isValidChar then String.utf8EncodeChar (Char.ofNat n) else []

/-! ## Serializer -/

def nullText : Text := ascii ['n', 'u', 'l', 'l']

def boolToStr (b : Bool) : Text :=
  if b then ascii ['t', 'r', 'u', 'e'] else ascii ['f', 'a', 'l', 's', 'e']

def formatNumber (fl : Floats F) (n : F) : Text :=
  if !fl.eq n n then nullText
  else if fl.eq n fl.inf || fl.eq n fl.negInf then nullText
  else if fl.eq (fl.ofInt (fl.toInt n)) n then toText (fl.toInt n)
  else fl.toText n

def quote : Text := ['"'.toUInt8]

def backslash : Text := ['\\'.toUInt8]

def hexd : Text :=
  ascii ['0', '1', '2', '3', '4', '5', '6', '7', '8', '9', 'a', 'b', 'c', 'd', 'e', 'f']

/-- What one round of the loop in `_escape_string` appends for the character `ch`. -/
def escapeChar (ch : Text) : Text :=
  if ch = quote then backslash ++ quote
  else if ch = backslash then backslash ++ backslash
  else if ch = ascii ['\n'] then ascii ['\\', 'n']
  else if ch = ascii ['\r'] then ascii ['\\', 'r']
  else if ch = ascii ['\t'] then ascii ['\\', 't']
  else if ch = ascii ['\\', 'b'] then ascii ['\\', 'b']
  else if ch = ascii ['\\', 'f'] then ascii ['\\', 'f']
  else if charCode ch < 32 then
    ascii ['\\', 'u', '0', '0'] ++ (hexd.drop (charCode ch / 16)).take 1 ++
      (hexd.drop (charCode ch % 16)).take 1
  else ch

def escapeString (s : Text) : Text := quote ++ s.flatMap (fun b => escapeChar [b]) ++ quote

def comma : Text := [','.toUInt8]

def colon : Text := [':'.toUInt8]

mutual

def stringify (fl : Floats F) : JsonValue F → Except Failure Text
  | .null => .ok nullText
  | .bool b => .ok (boolToStr b)
  | .number n => .ok (formatNumber fl n)
  | .int i => .ok (toText i)
  | .string s => .ok (escapeString s)
  | .array items => do
    let inner ← stringifyItems fl items true
    .ok (ascii ['['] ++ inner ++ ascii [']'])
  | .object keys values => do
    let inner ← stringifyMembers fl keys values 0
    .ok (ascii ['\x7b'] ++ inner ++ ascii ['\x7d'])

/-- The loop of `_stringify_array`; every item but the first has a comma in front. -/
def stringifyItems (fl : Floats F) : List (JsonValue F) → Bool → Except Failure Text
  | [], _ => .ok []
  | item :: items, first => do
    let s ← stringify fl item
    let rest ← stringifyItems fl items false
    .ok ((if first then [] else comma) ++ s ++ rest)

/-- The loop of `_stringify_object` over the keys, at the index `i`. -/
def stringifyMembers (fl : Floats F) : List Text → List (JsonValue F) → ℕ → Except Failure Text
  | [], _, _ => .ok []
  | _ :: _, [], i => .error (.indexOutOfBounds i i)
  | key :: keys, value :: values, i => do
    let s ← stringify fl value
    let rest ← stringifyMembers fl keys values (i + 1)
    .ok ((if i > 0 then comma else []) ++ (escapeString key ++ colon ++ s) ++ rest)

end

def newline : Text := ['\n'.toUInt8]

/-- `_indent_str`; the product wraps around -/
def indentStr (indent : ℤ) (depth : ℕ) : Text :=
  List.replicate ((indent * depth).bmod (2 ^ 64)).toNat ' '.toUInt8

mutual

/-- `_pretty_print_inner` -/
def prettyPrintInner (fl : Floats F) (indent : ℤ) : JsonValue F → ℕ → Except Failure Text
  | .null, _ => .ok nullText
  | .bool b, _ => .ok (boolToStr b)
  | .number n, _ => .ok (formatNumber fl n)
  | .int i, _ => .ok (toText i)
  | .string s, _ => .ok (escapeString s)
  | .array items, depth =>
    if items.isEmpty then .ok (ascii ['[', ']'])
    else do
      let inner ← prettyItems fl indent items depth
      .ok (ascii ['['] ++ newline ++ inner ++ indentStr indent depth ++ ascii [']'])
  | .object keys values, depth =>
    if keys.isEmpty then .ok (ascii ['\x7b', '\x7d'])
    else do
      let inner ← prettyMembers fl indent keys values depth 0
      .ok (ascii ['\x7b'] ++ newline ++ inner ++ indentStr indent depth ++ ascii ['\x7d'])

/-- The loop of `_pretty_array`. -/
def prettyItems (fl : Floats F) (indent : ℤ) : List (JsonValue F) → ℕ → Except Failure Text
  | [], _ => .ok []
  | item :: items, depth => do
    let s ← prettyPrintInner fl indent item (depth + 1)
    let rest ← prettyItems fl indent items depth
    .ok (indentStr indent (depth + 1) ++ s ++ (if items.isEmpty then [] else comma) ++ newline ++
      rest)

/-- The loop of `_pretty_object` over the keys, at the index `i`. -/
def prettyMembers (fl : Floats F) (indent : ℤ) :
    List Text → List (JsonValue F) → ℕ → ℕ → Except Failure Text
  | [], _, _, _ => .ok []
  | _ :: _, [], _, i => .error (.indexOutOfBounds i i)
  | key :: keys, value :: values, depth, i => do
    let s ← prettyPrintInner fl indent value (depth + 1)
    let rest ← prettyMembers fl indent keys values depth (i + 1)
    .ok (indentStr indent (depth + 1) ++ escapeString key ++ (colon ++ ascii [' ']) ++ s ++
      (if keys.isEmpty then [] else comma) ++ newline ++ rest)

end

def prettyPrint (fl : Floats F) (value : JsonValue F) (indent : ℤ) : Except Failure Text :=
  prettyPrintInner fl indent value 0

/-! ## Parser -/

structure Parser where
  input : Text
  pos : ℕ
  deriving DecidableEq

/-- `throw message + to_string(position)` -/
def throwAt {α : Type} (message : String) (position : ℕ) : Except Failure α :=
  .error (.thrown (text message ++ toText position))

/-- The character at the position, which is empty at the end of the input. -/
def peek (p : Parser) : Text := (p.input[p.pos]?).toList

def advance (p : Parser) : Parser := { p with pos := p.pos + 1 }

def currentChar (p : Parser) : Except Failure Text :=
  match p.input[p.pos]? with
  | some b => .ok [b]
  | none => throwAt "json: unexpected end of input at position " p.pos

def isWhitespace (ch : Text) : Bool :=
  ch = ascii [' '] || ch = ascii ['\t'] || ch = ascii ['\n'] || ch = ascii ['\r']

/-- A loop that advances over characters, with `left` bytes of the input at most. -/
def skipWhile (here : Text → Bool) : ℕ → Parser → Parser
  | 0, p => p
  | left + 1, p => if here (peek p) then skipWhile here left (advance p) else p

def skipWhitespace (p : Parser) : Parser := skipWhile isWhitespace (p.input.length - p.pos) p

def expectChar (p : Parser) (ch : Text) : Except Failure Parser := do
  let actual ← currentChar p
  if actual ≠ ch then
    .error (.thrown (text "json: expected '" ++ ch ++ text "' but got '" ++ actual ++
      text "' at position " ++ toText p.pos))
  else .ok (advance p)

def isDigit (ch : Text) : Bool := 48 ≤ charCode ch && charCode ch ≤ 57

/-- One `_expect_char` after another. -/
def expectAll : Text → Parser → Except Failure Parser
  | [], p => .ok p
  | b :: bs, p => do
    let p ← expectChar p [b]
    expectAll bs p

def parseNull (p : Parser) : Except Failure (JsonValue F × Parser) := do
  let p ← expectAll (ascii ['n', 'u', 'l', 'l']) p
  .ok (.null, p)

def parseTrue (p : Parser) : Except Failure (JsonValue F × Parser) := do
  let p ← expectAll (ascii ['t', 'r', 'u', 'e']) p
  .ok (.bool true, p)

def parseFalse (p : Parser) : Except Failure (JsonValue F × Parser) := do
  let p ← expectAll (ascii ['f', 'a', 'l', 's', 'e']) p
  .ok (.bool false, p)

/-! ### Strings -/

/-- The loop of `_hex_to_int`. -/
def hexFrom : Text → ℕ → Except Failure ℕ
  | [], result => .ok result
  | b :: bs, result =>
    let code := b.toNat
    if 97 ≤ code ∧ code ≤ 102 then hexFrom bs (result * 16 + (code - 87))
    else if 65 ≤ code ∧ code ≤ 70 then hexFrom bs (result * 16 + (code - 55))
    else if 48 ≤ code ∧ code ≤ 57 then hexFrom bs (result * 16 + (code - 48))
    else .error (.thrown (text "json: invalid hex digit '" ++ [b] ++ text "'"))

def hexToInt (hex : Text) : Except Failure ℕ := hexFrom hex 0

/-- The code point of `\u` and how many bytes more than four it takes: the second half of a
surrogate pair is read along. -/
def unicodeEscape (p : Parser) : Except Failure (ℕ × ℕ) := do
  let hex ← substring p.input p.pos (p.pos + 4)
  let codePoint ← hexToInt hex
  if 55296 ≤ codePoint ∧ codePoint ≤ 56319 ∧ p.pos + 10 ≤ p.input.length then
    if (← substring p.input (p.pos + 4) (p.pos + 6)) = ascii ['\\', 'u'] then
      let low ← hexToInt (← substring p.input (p.pos + 6) (p.pos + 10))
      if 56320 ≤ low ∧ low ≤ 57343 then
        .ok (65536 + (codePoint - 55296) * 1024 + (low - 56320), 6)
      else .ok (codePoint, 0)
    else .ok (codePoint, 0)
  else .ok (codePoint, 0)

/-- The escape behind a backslash: what it appends, and the parser at its last character. -/
def parseEscape (p : Parser) : Except Failure (Text × Parser) := do
  let escape ← currentChar p
  if escape = quote then .ok (quote, p)
  else if escape = backslash then .ok (backslash, p)
  else if escape = ascii ['/'] then .ok (ascii ['/'], p)
  else if escape = ascii ['b'] then .ok (ascii ['\\', 'b'], p)
  else if escape = ascii ['f'] then .ok (ascii ['\\', 'f'], p)
  else if escape = ascii ['n'] then .ok (ascii ['\n'], p)
  else if escape = ascii ['r'] then .ok (ascii ['\r'], p)
  else if escape = ascii ['t'] then .ok (ascii ['\t'], p)
  else if escape = ascii ['u'] then
    let p := advance p
    let (codePoint, pairExtra) ← unicodeEscape p
    .ok (charFrom codePoint, { p with pos := p.pos + 3 + pairExtra })
  else .error (.thrown (text "json: invalid escape sequence '\\" ++ escape ++
    text "' at position " ++ toText p.pos))

/-- The run of characters since the last escape. -/
def flushRun (p : Parser) (runStart : ℕ) : Except Failure Text :=
  if p.pos > runStart then substring p.input runStart p.pos else .ok []

/-- The loop of `_parse_string`. -/
def parseStringFrom (start : ℕ) : ℕ → Parser → Text → ℕ → Except Failure (Text × Parser)
  | 0, _, _, _ => .error .outOfFuel
  | fuel + 1, p, sb, runStart =>
    match p.input[p.pos]? with
    | none => throwAt "json: unterminated string starting at position " start
    | some b =>
      if [b] = quote then do
        let run ← flushRun p runStart
        .ok (sb ++ run, advance p)
      else if [b] = backslash then do
        let run ← flushRun p runStart
        let (escaped, p) ← parseEscape (advance p)
        parseStringFrom start fuel (advance p) (sb ++ run ++ escaped) (p.pos + 1)
      else if charCode [b] < 32 then
        .error (.thrown (text "json: invalid unescaped control character (code " ++
          toText (charCode [b]) ++ text ") in string at position " ++ toText p.pos))
      else parseStringFrom start fuel (advance p) sb runStart

/-- `_parse_string`, which returns the text of the string. -/
def parseString (p : Parser) : Except Failure (Text × Parser) := do
  let q ← expectChar p quote
  parseStringFrom p.pos (q.input.length - q.pos + 1) q [] q.pos

/-! ### Numbers -/

def charAtIsMinus (numStr : Text) : Bool := numStr.take 1 = ascii ['-']

def minusWidth (neg : Bool) : ℕ := if neg then 1 else 0

/-- The comparison with the limit, digit by digit. -/
def fitsFrom : Text → Text → Bool
  | a :: as, b :: bs =>
    if a.toNat < b.toNat then true else if a.toNat > b.toNat then false else fitsFrom as bs
  | _, _ => true

def fitsI64 (numStr : Text) (neg : Bool) : Bool :=
  let limit := if neg then
      ascii ['9', '2', '2', '3', '3', '7', '2', '0', '3', '6', '8', '5', '4', '7', '7', '5', '8',
        '0', '8']
    else
      ascii ['9', '2', '2', '3', '3', '7', '2', '0', '3', '6', '8', '5', '4', '7', '7', '5', '8',
        '0', '7']
  let body := if neg then numStr.drop 1 else numStr
  if body.length ≠ 19 then body.length < 19 else fitsFrom body limit

def skipDigits (p : Parser) : Parser := skipWhile isDigit (p.input.length - p.pos) p

def skipMinus (p : Parser) : Parser := if peek p = ascii ['-'] then advance p else p

/-- The integer part. -/
def parseIntPart (p : Parser) : Except Failure Parser :=
  if peek p = ascii ['0'] then .ok (advance p)
  else if isDigit (peek p) then .ok (skipDigits p)
  else throwAt "json: invalid number at position " p.pos

/-- The fractional part, and whether there is one. -/
def parseFraction (p : Parser) : Except Failure (Bool × Parser) :=
  if peek p = ascii ['.'] then
    let p := advance p
    if !isDigit (peek p) then
      throwAt "json: expected digit after decimal point at position " p.pos
    else .ok (true, skipDigits p)
  else .ok (false, p)

/-- The exponent part, and whether there is one. -/
def parseExponent (p : Parser) : Except Failure (Bool × Parser) :=
  if peek p = ascii ['e'] ∨ peek p = ascii ['E'] then
    let p := advance p
    let p := if peek p = ascii ['+'] ∨ peek p = ascii ['-'] then advance p else p
    if !isDigit (peek p) then throwAt "json: expected digit in exponent at position " p.pos
    else .ok (true, skipDigits p)
  else .ok (false, p)

/-- The value of a numeric token. -/
def numberValue (fl : Floats F) (numStr : Text) (isFloat : Bool) :
    Except Failure (JsonValue F) := do
  let neg := charAtIsMinus numStr
  let digits := numStr.length - minusWidth neg
  if !isFloat && (digits ≤ 18 || digits == 19 && fitsI64 numStr neg) then
    (parseInt numStr).map .int
  else (fl.parse numStr).map .number

def parseNumber (fl : Floats F) (p : Parser) : Except Failure (JsonValue F × Parser) := do
  let start := p.pos
  let p ← parseIntPart (skipMinus p)
  let (fraction, p) ← parseFraction p
  let (exponent, p) ← parseExponent p
  let numStr ← substring p.input start p.pos
  let value ← numberValue fl numStr (fraction || exponent)
  .ok (value, p)

/-! ### Arrays and objects -/

/-- The remaining elements. -/
def parseItems (parseElem : Parser → Except Failure (JsonValue F × Parser)) :
    ℕ → Parser → List (JsonValue F) → Except Failure (List (JsonValue F) × Parser)
  | 0, _, _ => .error .outOfFuel
  | fuel + 1, p, items =>
    if peek p = comma then do
      let (elem, p) ← parseElem (skipWhitespace (advance p))
      parseItems parseElem fuel (skipWhitespace p) (items ++ [elem])
    else .ok (items, p)

def parseArray (parseElem : Parser → Except Failure (JsonValue F × Parser)) (p : Parser) :
    Except Failure (JsonValue F × Parser) := do
  let p ← expectChar p (ascii ['['])
  let p := skipWhitespace p
  if peek p = ascii [']'] then .ok (.array [], advance p)
  else
    let (first, p) ← parseElem p
    let p := skipWhitespace p
    let (items, p) ← parseItems parseElem (p.input.length - p.pos + 1) p [first]
    let p ← expectChar p (ascii [']'])
    .ok (.array items, p)

/-- A key, the colon and the value. -/
def parseMember (parseElem : Parser → Except Failure (JsonValue F × Parser)) (p : Parser) :
    Except Failure (Text × JsonValue F × Parser) := do
  let (key, p) ← parseString p
  let p ← expectChar (skipWhitespace p) colon
  let (value, p) ← parseElem (skipWhitespace p)
  .ok (key, value, skipWhitespace p)

/-- The remaining pairs. -/
def parseMembers (parseElem : Parser → Except Failure (JsonValue F × Parser)) :
    ℕ → Parser → List Text → List (JsonValue F) →
    Except Failure (List Text × List (JsonValue F) × Parser)
  | 0, _, _, _ => .error .outOfFuel
  | fuel + 1, p, keys, values =>
    if peek p = comma then do
      let (key, value, p) ← parseMember parseElem (skipWhitespace (advance p))
      parseMembers parseElem fuel p (keys ++ [key]) (values ++ [value])
    else .ok (keys, values, p)

def parseObject (parseElem : Parser → Except Failure (JsonValue F × Parser)) (p : Parser) :
    Except Failure (JsonValue F × Parser) := do
  let p ← expectChar p (ascii ['\x7b'])
  let p := skipWhitespace p
  if charCode (peek p) = 125 then .ok (.object [] [], advance p)
  else
    let (key, value, p) ← parseMember parseElem p
    let (keys, values, p) ← parseMembers parseElem (p.input.length - p.pos + 1) p [key] [value]
    let p ← expectChar p (ascii ['\x7d'])
    .ok (.object keys values, p)

/-- `_parse_value`; the nesting depth bounds the recursion. -/
def parseValue (fl : Floats F) : ℕ → Parser → ℕ → Except Failure (JsonValue F × Parser)
  | 0, _, _ => .error .outOfFuel
  | fuel + 1, p, depth =>
    if depth > 1000 then .error (.thrown (text "json: maximum nesting depth exceeded (1000)"))
    else
      let p := skipWhitespace p
      let ch := peek p
      if ch = quote then (parseString p).map fun parsed => (.string parsed.1, parsed.2)
      else if charCode ch = 123 then
        parseObject (fun q => parseValue fl fuel q (depth + 1)) p
      else if ch = ascii ['['] then parseArray (fun q => parseValue fl fuel q (depth + 1)) p
      else if ch = ascii ['t'] then parseTrue p
      else if ch = ascii ['f'] then parseFalse p
      else if ch = ascii ['n'] then parseNull p
      else if ch = ascii ['-'] ∨ isDigit ch = true then parseNumber fl p
      else if ch = [] then
        .error (.thrown (text "json: unexpected end of input at position " ++ toText p.pos ++
          text " (truncated document)"))
      else
        .error (.thrown (text "json: unexpected character '" ++ ch ++ text "' at position " ++
          toText p.pos))

/-- Values are at most 1001 deep when they are parsed. -/
def parse (fl : Floats F) (input : Text) : Except Failure (JsonValue F) := do
  let (value, p) ← parseValue fl 1002 (skipWhitespace ⟨input, 0⟩) 0
  let tail := skipWhitespace p
  if tail.pos < tail.input.length then
    throwAt "json: unexpected trailing content at position " tail.pos
  else .ok value

/-! ## Accessors -/

/-- The loop of `_object_get`, at the index `i`; a later pair replaces an earlier one. -/
def getFrom (key : Text) (values : List (JsonValue F)) :
    List Text → ℕ → JsonValue F → Except Failure (JsonValue F)
  | [], _, result => .ok result
  | k :: keys, i, result => do
    let result ← if k = key then item values i else .ok result
    getFrom key values keys (i + 1) result

/-- `get`; what is not found is null -/
def get (value : JsonValue F) (key : Text) : Except Failure (JsonValue F) :=
  match value with
  | .object keys values => getFrom key values keys 0 .null
  | _ => .ok .null

/-- The loop of `_object_set`, at the index `i`: the new keys and values, and whether the key was
there. -/
def setFrom (key : Text) (newVal : JsonValue F) (values : List (JsonValue F)) :
    List Text → ℕ → Except Failure (List Text × List (JsonValue F) × Bool)
  | [], _ => .ok ([], [], false)
  | k :: keys, i => do
    let value ← if k = key then .ok newVal else item values i
    let (newKeys, newValues, found) ← setFrom key newVal values keys (i + 1)
    .ok (k :: newKeys, value :: newValues, decide (k = key) || found)

def set (value : JsonValue F) (key : Text) (newVal : JsonValue F) :
    Except Failure (JsonValue F) :=
  match value with
  | .object keys values => do
    let (newKeys, newValues, found) ← setFrom key newVal values keys 0
    if found then .ok (.object newKeys newValues)
    else .ok (.object (newKeys ++ [key]) (newValues ++ [newVal]))
  | _ => .error (.thrown (text "json.set: value is not an object"))

/-! ### What is set is what is found -/

/-- The value of the last pair with the key. -/
def lastOf (key : Text) (pairs : List (Text × JsonValue F)) (result : JsonValue F) : JsonValue F :=
  pairs.foldl (fun result pair => if pair.1 = key then pair.2 else result) result

/-- The pairs with the new value under the key. -/
def replaced (key : Text) (newVal : JsonValue F) (pairs : List (Text × JsonValue F)) :
    List (Text × JsonValue F) :=
  pairs.map fun pair => (pair.1, if pair.1 = key then newVal else pair.2)

variable {keys : List Text} {values : List (JsonValue F)} {key k : Text} {newVal : JsonValue F}

theorem getFrom_eq (key : Text) (values : List (JsonValue F)) : ∀ (keys : List Text) (i : ℕ)
    (result : JsonValue F), i + keys.length = values.length →
    getFrom key values keys i result = .ok (lastOf key (keys.zip (values.drop i)) result)
  | [], i, result, _ => rfl
  | k :: keys, i, result, hlen => by
    rw [List.length_cons] at hlen
    have hlt : i < values.length := by omega
    have ih := getFrom_eq key values keys (i + 1)
    rw [getFrom, item_ok hlt, List.drop_eq_getElem_cons hlt, List.zip_cons_cons]
    by_cases hk : k = key
    · rw [if_pos hk]
      refine (ih values[i] (by omega)).trans ?_
      rw [lastOf, lastOf, List.foldl_cons, if_pos hk]
    · rw [if_neg hk]
      refine (ih result (by omega)).trans ?_
      rw [lastOf, lastOf, List.foldl_cons, if_neg hk]

theorem replaced_cons (key : Text) (newVal : JsonValue F) (k : Text) (value : JsonValue F)
    (pairs : List (Text × JsonValue F)) : replaced key newVal ((k, value) :: pairs) =
      (k, if k = key then newVal else value) :: replaced key newVal pairs := rfl

theorem setFrom_eq (key : Text) (newVal : JsonValue F) (values : List (JsonValue F)) :
    ∀ (keys : List Text) (i : ℕ), i + keys.length = values.length →
    setFrom key newVal values keys i =
      .ok (keys, (replaced key newVal (keys.zip (values.drop i))).map Prod.snd,
        decide (key ∈ keys))
  | [], i, _ => rfl
  | k :: keys, i, hlen => by
    rw [List.length_cons] at hlen
    have hlt : i < values.length := by omega
    have ih := setFrom_eq key newVal values keys (i + 1) (by omega)
    rw [setFrom, item_ok hlt, List.drop_eq_getElem_cons hlt, List.zip_cons_cons, ih]
    have hmem : decide (key ∈ k :: keys) = (decide (k = key) || decide (key ∈ keys)) := by
      rw [← Bool.decide_or]
      exact decide_eq_decide.mpr (by rw [List.mem_cons, eq_comm])
    rw [hmem, replaced_cons, List.map_cons]
    by_cases hk : k = key
    · rw [if_pos hk, if_pos hk]
      rfl
    · rw [if_neg hk, if_neg hk]
      rfl

theorem zip_replaced (key : Text) (newVal : JsonValue F) :
    ∀ (keys : List Text) (values : List (JsonValue F)),
    keys.zip ((replaced key newVal (keys.zip values)).map Prod.snd) =
      replaced key newVal (keys.zip values)
  | [], _ => rfl
  | _ :: _, [] => rfl
  | k :: keys, value :: values => by
    have ih := zip_replaced key newVal keys values
    rw [List.zip_cons_cons, replaced_cons, List.map_cons, List.zip_cons_cons, ih]

theorem length_replaced (key : Text) (newVal : JsonValue F)
    (hlen : keys.length = values.length) :
    ((replaced key newVal (keys.zip values)).map Prod.snd).length = keys.length := by
  rw [List.length_map, replaced, List.length_map, List.length_zip, ← hlen, Nat.min_self]

theorem lastOf_replaced_of_ne {k : Text} (hne : k ≠ key) (pairs : List (Text × JsonValue F))
    (result : JsonValue F) :
    lastOf k (replaced key newVal pairs) result = lastOf k pairs result := by
  induction pairs generalizing result with
  | nil => rfl
  | cons pair pairs ih =>
    rw [replaced_cons, lastOf, lastOf, List.foldl_cons, List.foldl_cons]
    refine (ih _).trans ?_
    by_cases hk : pair.1 = k
    · rw [if_pos hk, if_pos hk, if_neg fun h => hne (hk.symm.trans h)]
      rfl
    · rw [if_neg hk, if_neg hk]
      rfl

theorem lastOf_replaced (pairs : List (Text × JsonValue F)) (result : JsonValue F) :
    lastOf key (replaced key newVal pairs) result =
      if key ∈ pairs.map Prod.fst then newVal else result := by
  induction pairs generalizing result with
  | nil => rfl
  | cons pair pairs ih =>
    rw [replaced_cons, lastOf, List.foldl_cons]
    refine (ih _).trans ?_
    by_cases hk : pair.1 = key
    · have hmem : key ∈ (pair :: pairs).map Prod.fst :=
        List.mem_map.mpr ⟨pair, List.mem_cons_self, hk⟩
      rw [if_pos hk, if_pos hk, ite_self, if_pos hmem]
    · have hmem : key ∈ (pair :: pairs).map Prod.fst ↔ key ∈ pairs.map Prod.fst := by
        rw [List.map_cons, List.mem_cons, or_iff_right (Ne.symm hk)]
      rw [if_neg hk]
      exact if_congr hmem.symm rfl rfl

/-- What is set is what is found, and nothing else changes. -/
theorem get_set (hlen : keys.length = values.length) (key : Text) (newVal : JsonValue F) :
    ∃ object, set (.object keys values) key newVal = .ok object ∧ get object key = .ok newVal ∧
      ∀ k ≠ key, get object k = get (.object keys values) k := by
  have hset := setFrom_eq key newVal values keys 0 (by omega)
  have hget (k : Text) : get (.object keys values) k = .ok (lastOf k (keys.zip values) .null) := by
    rw [get, getFrom_eq k values keys 0 _ (by omega), List.drop_zero]
  have hlen' := length_replaced key newVal hlen
  have hkeys : (keys.zip values).map Prod.fst = keys :=
    List.map_fst_zip (Nat.le_of_eq hlen)
  rw [List.drop_zero] at hset
  rw [set, hset, ok_bind]
  by_cases hmem : key ∈ keys
  · refine ⟨_, if_pos (decide_eq_true hmem), ?_, fun k hne => ?_⟩
    · rw [get, getFrom_eq key _ keys 0 _ (by omega), List.drop_zero, zip_replaced, lastOf_replaced,
        hkeys, if_pos hmem]
    · rw [hget, get, getFrom_eq k _ keys 0 _ (by omega), List.drop_zero, zip_replaced,
        lastOf_replaced_of_ne hne]
  · have hzip : (keys ++ [key]).zip
        ((replaced key newVal (keys.zip values)).map Prod.snd ++ [newVal]) =
        replaced key newVal (keys.zip values) ++ [(key, newVal)] := by
      rw [List.zip_append hlen'.symm, zip_replaced]
      rfl
    have hlen₂ : (keys ++ [key]).length =
        ((replaced key newVal (keys.zip values)).map Prod.snd ++ [newVal]).length := by
      rw [List.length_append, List.length_append, hlen']
      rfl
    refine ⟨_, if_neg (by simpa using hmem), ?_, fun k hne => ?_⟩
    · rw [get, getFrom_eq key _ _ 0 _ (by omega), List.drop_zero, hzip, lastOf, List.foldl_append,
        List.foldl_cons, if_pos rfl]
      rfl
    · rw [hget, get, getFrom_eq k _ _ 0 _ (by omega), List.drop_zero, hzip, lastOf,
        List.foldl_append, List.foldl_cons, if_neg (Ne.symm hne), List.foldl_nil]
      exact congrArg _ (lastOf_replaced_of_ne hne _ _)

end Kryos.Stdlib.StdJson
