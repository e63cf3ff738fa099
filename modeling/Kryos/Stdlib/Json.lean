import Kryos.Lib.Binary64
import Mathlib.Data.Int.Log
import Mathlib.Data.Rat.Floor

/-!
# JSON documents in the node table

The native standard library keeps JSON documents as nodes in a table, addressed by handles. The
serializer walks the nodes below a handle and writes characters; the parser reads the bytes of a
text and allocates nodes as it goes. Both are recursive and are given fuel here. The serializer runs
out of it only on a table whose nodes form a cycle.

A string is the list of its characters. The number of a node is a binary64 value.
-/

namespace Kryos.Stdlib.Json

abbrev Handle := ℤ

inductive JsonNode where
  | null
  | bool (b : Bool)
  | number (n : Float.Model)
  | str (s : List Char)
  | array (items : List Handle)
  | object (pairs : List (List Char × Handle))

/-- `NODE_TABLE` with `NEXT_NODE_ID` -/
structure NodeTable where
  map : Handle → Option JsonNode
  nextId : Handle

namespace NodeTable

def get (t : NodeTable) (h : Handle) : Option JsonNode := t.map h

def insert (t : NodeTable) (node : JsonNode) : Handle × NodeTable :=
  (t.nextId, ⟨Function.update t.map t.nextId (some node), t.nextId + 1⟩)

end NodeTable

/-! ## Characters -/

def quote : Char := Char.ofNat 0x22

def backslash : Char := Char.ofNat 0x5c

/-- `char::is_control`: the general category `Cc` -/
def isControl (c : Char) : Bool := c.toNat < 0x20 || (0x7f ≤ c.toNat && c.toNat < 0xa0)

/-- `{:04x}` -/
def hex4 (n : ℕ) : List Char :=
  let ds := Nat.toDigits 16 n
  List.replicate (4 - ds.length) '0' ++ ds

/-- The escapes of a string value. -/
def escapeValue (c : Char) : List Char :=
  if c = quote then [backslash, quote]
  else if c = backslash then [backslash, backslash]
  else if c = '\n' then [backslash, 'n']
  else if c = '\r' then [backslash, 'r']
  else if c = '\t' then [backslash, 't']
  else if c = Char.ofNat 0x08 then [backslash, 'b']
  else if c = Char.ofNat 0x0c then [backslash, 'f']
  else if isControl c then backslash :: 'u' :: hex4 c.toNat
  else [c]

/-- The escapes of an object key, which are fewer. -/
def escapeKey (c : Char) : List Char :=
  if c = quote then [backslash, quote]
  else if c = backslash then [backslash, backslash]
  else if c = '\n' then [backslash, 'n']
  else if c = '\r' then [backslash, 'r']
  else if c = '\t' then [backslash, 't']
  else [c]

/-! ## Numbers as text -/

/-- An `i64` in decimal. -/
def displayI64 (n : ℤ) : List Char :=
  if n < 0 then '-' :: Nat.toDigits 10 n.natAbs else Nat.toDigits 10 n.natAbs

/-- The two decimals of `n` digits around `v`, the nearer one first: `d * 10 ^ k` as `(d, k)`. -/
def decimalsAround (v : ℚ) (n : ℕ) : List (ℕ × ℤ) :=
  let p := Int.log 10 v + 1
  let s := v * (10 : ℚ) ^ ((n : ℤ) - p)
  let lo := ⌊s⌋₊
  if s - lo ≤ lo + 1 - s then [(lo, p - n), (lo + 1, p - n)] else [(lo + 1, p - n), (lo, p - n)]

/-- A shortest decimal that reads back as the positive number `x`, whose value is `v`. Seventeen
digits always do. -/
def shortestDecimal (x : Float.Model) (v : ℚ) : ℕ × ℤ :=
  let all := (List.range 17).flatMap fun i => decimalsAround v (i + 1)
  (all.find? fun p => Float.Model.ofScientific p.1 p.2 = x).getD (0, 0)

/-- `d * 10 ^ k` in positional notation, without trailing zeros in the fraction. -/
def positional (d : ℕ) (k : ℤ) : List Char :=
  let ds := Nat.toDigits 10 d
  if 0 ≤ k then ds ++ List.replicate k.toNat '0'
  else
    let padded := List.replicate ((-k).toNat + 1 - ds.length) '0' ++ ds
    let point := padded.length - (-k).toNat
    let fraction := (padded.drop point).reverse.dropWhile (· = '0') |>.reverse
    if fraction.isEmpty then padded.take point else padded.take point ++ '.' :: fraction

/-- `format!` of a finite `f64` that is no integer or too large for an `i64`: the shortest digits
that read back, never in scientific notation. -/
def displayF64 (x : Float.Model) : List Char :=
  match x.unpack with
  | .finite s m e _ =>
    let v : ℚ := m * (2 : ℚ) ^ e
    let (d, k) := shortestDecimal x.abs v
    if s == .negative then '-' :: positional d k else positional d k
  | _ => ['0']

/-- The text of a number. -/
def stringifyNumber (n : Float.Model) : List Char :=
  if !n.isFinite then "null".toList
  else if Binary64.isIntegral n ∧ Float.Model.ofInt (-2 ^ 63) ≤ n ∧
      n ≤ Float.Model.ofInt (2 ^ 63 - 1) then
    displayI64 n.toInt64.toInt
  else displayF64 n

/-! ## The serializer -/

/-- `stringify_node_with_table`: the text of a node, or `none` when the fuel runs out. A handle that
is not in the table has no text. -/
def stringifyNodeWithTable (table : NodeTable) : ℕ → JsonNode → Option (List Char)
  | 0, _ => none
  | fuel + 1, node =>
    let child (h : Handle) : Option (List Char) :=
      match table.get h with
      | some item => stringifyNodeWithTable table fuel item
      | none => some []
    match node with
    | .null => some "null".toList
    | .bool b => some (if b then "true".toList else "false".toList)
    | .number n => some (stringifyNumber n)
    | .str s => some (quote :: s.flatMap escapeValue ++ [quote])
    | .array items => do
      let texts ← items.mapM child
      return '[' :: [','].intercalate texts ++ [']']
    | .object pairs => do
      let texts ← pairs.mapM fun p => do
        let text ← child p.2
        return quote :: p.1.flatMap escapeKey ++ [quote, ':'] ++ text
      return '{' :: [','].intercalate texts ++ ['}']

def kryosJsonStringify (table : NodeTable) (fuel : ℕ) (h : Handle) : Option (List Char) :=
  match table.get h with
  | some node => stringifyNodeWithTable table fuel node
  | none => some []

/-- The bytes of a string. -/
def asBytes (s : List Char) : List UInt8 := s.flatMap String.utf8EncodeChar

/-! ## The parser -/

/-- An error leaves behind the nodes that were allocated before it. -/
inductive Outcome (α : Type) where
  | ok (a : α)
  | err (t : NodeTable)
  | outOfFuel

namespace Outcome

def bind {α β : Type} : Outcome α → (α → Outcome β) → Outcome β
  | .ok a, f => f a
  | .err t, _ => .err t
  | .outOfFuel, _ => .outOfFuel

instance : Monad Outcome where
  pure := .ok
  bind := Outcome.bind

@[simp] theorem ok_bind {α β : Type} (a : α) (f : α → Outcome β) : (ok a >>= f) = f a := rfl

@[simp] theorem pure_eq {α : Type} (a : α) : (pure a : Outcome α) = ok a := rfl

end Outcome

def isSpace (b : UInt8) : Bool :=
  b = ' '.toUInt8 || b = '\t'.toUInt8 || b = '\n'.toUInt8 || b = '\r'.toUInt8

def skipWhitespace (input : List UInt8) : List UInt8 := input.dropWhile isSpace

/-- `consume_str`: the rest of the input after a literal. -/
def consumeStr (s : List Char) (input : List UInt8) : Option (List UInt8) :=
  if (asBytes s).isPrefixOf input then some (input.drop (asBytes s).length) else none

def isDigit (b : UInt8) : Bool := '0'.toUInt8 ≤ b && b ≤ '9'.toUInt8

def hexDigit (b : UInt8) : Option ℕ :=
  if '0'.toUInt8 ≤ b ∧ b ≤ '9'.toUInt8 then some (b.toNat - '0'.toNat)
  else if 'a'.toUInt8 ≤ b ∧ b ≤ 'f'.toUInt8 then some (b.toNat - 'a'.toNat + 10)
  else if 'A'.toUInt8 ≤ b ∧ b ≤ 'F'.toUInt8 then some (b.toNat - 'A'.toNat + 10)
  else none

/-- `char::from_u32` -/
def charFromU32 (n : ℕ) : Option Char := if n.isValidChar then some (Char.ofNat n) else none

/-- The escapes of one letter. -/
def unescape (b : UInt8) : Option Char :=
  if b = quote.toUInt8 then some quote
  else if b = backslash.toUInt8 then some backslash
  else if b = '/'.toUInt8 then some '/'
  else if b = 'b'.toUInt8 then some (Char.ofNat 0x08)
  else if b = 'f'.toUInt8 then some (Char.ofNat 0x0c)
  else if b = 'n'.toUInt8 then some '\n'
  else if b = 'r'.toUInt8 then some '\r'
  else if b = 't'.toUInt8 then some '\t'
  else none

/-- `ch as char` for a byte -/
def byteAsChar (b : UInt8) : Char := Char.ofNat b.toNat

/-- The loop of `parse_string`, after the opening quote. -/
def stringBody (result : List Char) : List UInt8 → Option (List Char × List UInt8)
  | [] => none
  | b :: rest =>
    if b = quote.toUInt8 then some (result, rest)
    else if b = backslash.toUInt8 then
      match rest with
      | [] => none
      | e :: rest =>
        match unescape e with
        | some c => stringBody (result ++ [c]) rest
        | none =>
          if e = 'u'.toUInt8 then
            match rest with
            | d₁ :: d₂ :: d₃ :: d₄ :: rest =>
              match hexDigit d₁, hexDigit d₂, hexDigit d₃, hexDigit d₄ with
              | some x₁, some x₂, some x₃, some x₄ =>
                match charFromU32 (((x₁ * 16 + x₂) * 16 + x₃) * 16 + x₄) with
                | some c => stringBody (result ++ [c]) rest
                | none => none
              | _, _, _, _ => none
            | _ => none
          else none
    else stringBody (result ++ [byteAsChar b]) rest

/-- What a parse leaves: the handle of the node, the input after it and the table. -/
abbrev Parsed := Handle × List UInt8 × NodeTable

/-- `alloc_node` at the end of a parse -/
def allocNode (node : JsonNode) (rest : List UInt8) (t : NodeTable) : Outcome Parsed :=
  .ok ((t.insert node).1, rest, (t.insert node).2)

def parseNull (input : List UInt8) (t : NodeTable) : Outcome Parsed :=
  match consumeStr "null".toList input with
  | some rest => allocNode .null rest t
  | none => .err t

def parseBool (input : List UInt8) (t : NodeTable) : Outcome Parsed :=
  match consumeStr "true".toList input with
  | some rest => allocNode (.bool true) rest t
  | none =>
    match consumeStr "false".toList input with
    | some rest => allocNode (.bool false) rest t
    | none => .err t

def parseString (input : List UInt8) (t : NodeTable) : Outcome Parsed :=
  match input with
  | b :: rest =>
    if b = quote.toUInt8 then
      match stringBody [] rest with
      | some (s, rest) => allocNode (.str s) rest t
      | none => .err t
    else .err t
  | [] => .err t

/-- The number that a run of digits denotes. -/
def digitsValue (ds : List UInt8) : ℕ := ds.foldl (fun n b => 10 * n + (b.toNat - '0'.toNat)) 0

/-- One or more digits, and the input after them. -/
def takeDigits (input : List UInt8) : Option (List UInt8 × List UInt8) :=
  if (input.takeWhile isDigit).isEmpty then none
  else some (input.takeWhile isDigit, input.dropWhile isDigit)

/-- The fraction of a number: its digits, none where there is no point. -/
def takeFraction (input : List UInt8) : Option (List UInt8 × List UInt8) :=
  match input with
  | b :: rest => if b = '.'.toUInt8 then takeDigits rest else some ([], input)
  | [] => some ([], [])

/-- The exponent of a number. -/
def takeExponent (input : List UInt8) : Option (ℤ × List UInt8) :=
  match input with
  | b :: rest =>
    if b = 'e'.toUInt8 ∨ b = 'E'.toUInt8 then
      match rest with
      | s :: digits =>
        if s = '+'.toUInt8 ∨ s = '-'.toUInt8 then
          (takeDigits digits).map fun p =>
            (if s = '-'.toUInt8 then -(digitsValue p.1 : ℤ) else digitsValue p.1, p.2)
        else (takeDigits rest).map fun p => ((digitsValue p.1 : ℤ), p.2)
      | [] => none
    else some (0, input)
  | [] => some (0, [])

/-- A leading minus sign. -/
def takeSign (input : List UInt8) : Bool × List UInt8 :=
  match input with
  | b :: rest => if b = '-'.toUInt8 then (true, rest) else (false, input)
  | [] => (false, [])

/-- `parse_number`. The text it has consumed is a decimal literal, which `str::parse` rounds to the
nearest binary64 value. -/
def parseNumber (input : List UInt8) (t : NodeTable) : Outcome Parsed :=
  let (neg, input) := takeSign input
  match takeDigits input with
  | none => .err t
  | some (int, input) =>
    match takeFraction input with
    | none => .err t
    | some (fraction, input) =>
      match takeExponent input with
      | none => .err t
      | some (e, rest) =>
        allocNode (.number (Binary64.ofDecimal neg (digitsValue (int ++ fraction))
          (e - fraction.length))) rest t

mutual

def parseValue : ℕ → List UInt8 → NodeTable → Outcome Parsed
  | 0, _, _ => .outOfFuel
  | fuel + 1, input, t =>
    match skipWhitespace input with
    | [] => .err t
    | b :: rest =>
      if b = 'n'.toUInt8 then parseNull (b :: rest) t
      else if b = 't'.toUInt8 ∨ b = 'f'.toUInt8 then parseBool (b :: rest) t
      else if b = quote.toUInt8 then parseString (b :: rest) t
      else if b = '['.toUInt8 then parseArray fuel (b :: rest) t
      else if b = '{'.toUInt8 then parseObject fuel (b :: rest) t
      else if b = '-'.toUInt8 ∨ isDigit b then parseNumber (b :: rest) t
      else .err t

def parseArray : ℕ → List UInt8 → NodeTable → Outcome Parsed
  | 0, _, _ => .outOfFuel
  | _ + 1, [], t => .err t
  | fuel + 1, b :: rest, t =>
    if b = '['.toUInt8 then
      match skipWhitespace rest with
      | b' :: rest' =>
        if b' = ']'.toUInt8 then allocNode (.array []) rest' t
        else arrayItems fuel [] (b' :: rest') t
      | [] => arrayItems fuel [] [] t
    else .err t

/-- The loop of `parse_array`. -/
def arrayItems : ℕ → List Handle → List UInt8 → NodeTable → Outcome Parsed
  | 0, _, _, _ => .outOfFuel
  | fuel + 1, items, input, t => do
    let (h, rest, t) ← parseValue fuel input t
    match skipWhitespace rest with
    | b :: rest =>
      if b = ','.toUInt8 then arrayItems fuel (items ++ [h]) (skipWhitespace rest) t
      else if b = ']'.toUInt8 then allocNode (.array (items ++ [h])) rest t
      else .err t
    | [] => .err t

def parseObject : ℕ → List UInt8 → NodeTable → Outcome Parsed
  | 0, _, _ => .outOfFuel
  | _ + 1, [], t => .err t
  | fuel + 1, b :: rest, t =>
    if b = '{'.toUInt8 then
      match skipWhitespace rest with
      | b' :: rest' =>
        if b' = '}'.toUInt8 then allocNode (.object []) rest' t
        else objectPairs fuel [] (b' :: rest') t
      | [] => objectPairs fuel [] [] t
    else .err t

/-- The loop of `parse_object`. The key is read back from the node that `parse_string` allocates. -/
def objectPairs : ℕ → List (List Char × Handle) → List UInt8 → NodeTable → Outcome Parsed
  | 0, _, _, _ => .outOfFuel
  | fuel + 1, pairs, input, t => do
    let (k, rest, t) ← parseString input t
    match t.get k with
    | some (.str key) =>
      match skipWhitespace rest with
      | b :: rest =>
        if b = ':'.toUInt8 then do
          let (v, rest, t) ← parseValue fuel rest t
          match skipWhitespace rest with
          | b :: rest =>
            if b = ','.toUInt8 then objectPairs fuel (pairs ++ [(key, v)]) (skipWhitespace rest) t
            else if b = '}'.toUInt8 then allocNode (.object (pairs ++ [(key, v)])) rest t
            else .err t
          | [] => .err t
        else .err t
      | [] => .err t
    | _ => .err t

end

/-- `kryos_json_parse`: the handle of the root, or minus one, and the table; `none` when the fuel
runs out. Input after the first value is ignored. -/
def kryosJsonParse (fuel : ℕ) (s : List Char) (t : NodeTable) : Option (Handle × NodeTable) :=
  match parseValue fuel (asBytes s) t with
  | .ok (h, _, t') => some (h, t')
  | .err t' => some (-1, t')
  | .outOfFuel => none

end Kryos.Stdlib.Json
