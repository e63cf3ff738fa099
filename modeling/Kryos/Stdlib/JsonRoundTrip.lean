import Mathlib
import Kryos.Lib.Decimal
import Kryos.Stdlib.Json

/-!
# Serialized documents, parsed

Parsing the text of a document always succeeds and gives the document back, except for its
non-ASCII characters: the parser turns each byte of a string into a character. A character that
the serializer escapes is not affected, and string values escape more characters than keys do.
`Tree.readBack` is what comes back, and `roundTrips_iff` says when that is the document itself.

## Main results

* `parseValue_text` — what the parser makes of a document's text
* `roundTrips_iff` — a document round-trips exactly when its keys are ASCII and its strings hold
  nothing but ASCII and control characters
* `accent_is_lost` — a one-letter string that does not
-/

namespace Kryos.Stdlib.Json

/-! ## Documents -/

/-- A JSON document. -/
inductive Tree where
  | null
  | bool (b : Bool)
  | number (n : Float.Model)
  | str (s : List Char)
  | array (items : List Tree)
  | object (pairs : List (List Char × Tree))

theorem Tree.induction {P : Tree → Prop} (null : P .null) (bool : ∀ b, P (.bool b))
    (number : ∀ n, P (.number n)) (str : ∀ s, P (.str s))
    (array : ∀ items, (∀ t ∈ items, P t) → P (.array items))
    (object : ∀ pairs, (∀ p ∈ pairs, P p.2) → P (.object pairs)) : ∀ t, P t
  | .null => null
  | .bool b => bool b
  | .number n => number n
  | .str s => str s
  | .array items => array items fun t _ => Tree.induction null bool number str array object t
  | .object pairs => object pairs fun p _ => Tree.induction null bool number str array object p.2
termination_by t => sizeOf t
decreasing_by
  · have := List.sizeOf_lt_of_mem ‹t ∈ items›
    simp only [Tree.array.sizeOf_spec]
    omega
  · have h₁ := List.sizeOf_lt_of_mem ‹p ∈ pairs›
    have h₂ : sizeOf p.2 < sizeOf p := by
      rw [Prod.mk.sizeOf_spec]
      omega
    simp only [Tree.object.sizeOf_spec]
    omega

mutual

/-- The nodes of the table below `h` form the document. -/
def Denotes (map : Handle → Option JsonNode) (h : Handle) : Tree → Prop
  | .null => map h = some .null
  | .bool b => map h = some (.bool b)
  | .number n => map h = some (.number n)
  | .str s => map h = some (.str s)
  | .array ts => ∃ items, map h = some (.array items) ∧ DenotesItems map items ts
  | .object ps => ∃ pairs, map h = some (.object pairs) ∧ DenotesPairs map pairs ps

def DenotesItems (map : Handle → Option JsonNode) : List Handle → List Tree → Prop
  | [], [] => True
  | h :: hs, t :: ts => Denotes map h t ∧ DenotesItems map hs ts
  | _, _ => False

def DenotesPairs (map : Handle → Option JsonNode) :
    List (List Char × Handle) → List (List Char × Tree) → Prop
  | [], [] => True
  | (k, h) :: hs, (k', t) :: ts => (k = k' ∧ Denotes map h t) ∧ DenotesPairs map hs ts
  | _, _ => False

end

mutual

/-- Every number, string and key of the document meets its condition. -/
def Tree.All (num : Float.Model → Prop) (str key : List Char → Prop) : Tree → Prop
  | .null => True
  | .bool _ => True
  | .number n => num n
  | .str s => str s
  | .array ts => Tree.AllItems num str key ts
  | .object ps => Tree.AllPairs num str key ps

def Tree.AllItems (num : Float.Model → Prop) (str key : List Char → Prop) : List Tree → Prop
  | [] => True
  | t :: ts => Tree.All num str key t ∧ Tree.AllItems num str key ts

def Tree.AllPairs (num : Float.Model → Prop) (str key : List Char → Prop) :
    List (List Char × Tree) → Prop
  | [] => True
  | (k, t) :: ps => (key k ∧ Tree.All num str key t) ∧ Tree.AllPairs num str key ps

end

/-- The numbers of the document are integers of magnitude at most `2 ^ 53`. -/
def Tree.Integers (t : Tree) : Prop :=
  t.All (fun n => ∃ z : ℤ, z.natAbs ≤ 2 ^ 53 ∧ n = Float.Model.ofInt z) (fun _ => True) fun _ => True

/-- Its keys are ASCII, and its strings ASCII but for control characters, which are escaped. -/
def Tree.Plain (t : Tree) : Prop :=
  t.All (fun _ => True) (fun s => ∀ c ∈ s, c.toNat < 0x80 ∨ isControl c)
    fun k => ∀ c ∈ k, c.toNat < 0x80

mutual

/-- The text of a document. -/
def Tree.text : Tree → List Char
  | .null => "null".toList
  | .bool b => if b then "true".toList else "false".toList
  | .number n => stringifyNumber n
  | .str s => quote :: s.flatMap escapeValue ++ [quote]
  | .array ts => '[' :: [','].intercalate (Tree.textItems ts) ++ [']']
  | .object ps => '{' :: [','].intercalate (Tree.textPairs ps) ++ ['}']

def Tree.textItems : List Tree → List (List Char)
  | [] => []
  | t :: ts => t.text :: Tree.textItems ts

def Tree.textPairs : List (List Char × Tree) → List (List Char)
  | [] => []
  | (k, t) :: ps =>
    (quote :: k.flatMap escapeKey ++ [quote, ':'] ++ t.text) :: Tree.textPairs ps

end

/-- A character of a key, written as UTF-8 and read back byte by byte. -/
def readKey (c : Char) : List Char := (String.utf8EncodeChar c).map byteAsChar

/-- A character of a string value, likewise; control characters are escaped. -/
def readValue (c : Char) : List Char := if isControl c then [c] else readKey c

mutual

/-- The document that the parser makes of the text of a document. -/
def Tree.readBack : Tree → Tree
  | .null => .null
  | .bool b => .bool b
  | .number n => .number n
  | .str s => .str (s.flatMap readValue)
  | .array ts => .array (Tree.readBackItems ts)
  | .object ps => .object (Tree.readBackPairs ps)

def Tree.readBackItems : List Tree → List Tree
  | [] => []
  | t :: ts => t.readBack :: Tree.readBackItems ts

def Tree.readBackPairs : List (List Char × Tree) → List (List Char × Tree)
  | [] => []
  | (k, t) :: ps => (k.flatMap readKey, t.readBack) :: Tree.readBackPairs ps

end

/-! ## Characters and bytes -/

theorem asBytes_append (s s' : List Char) : asBytes (s ++ s') = asBytes s ++ asBytes s' :=
  List.flatMap_append

theorem asBytes_cons (c : Char) (s : List Char) :
    asBytes (c :: s) = String.utf8EncodeChar c ++ asBytes s := List.flatMap_cons

theorem toNat_val (c : Char) : c.val.toNat = c.toNat := rfl

variable {c : Char}

theorem utf8EncodeChar_of_ascii (h : c.toNat < 0x80) : String.utf8EncodeChar c = [c.toUInt8] := by
  simp only [String.utf8EncodeChar, toNat_val]
  rw [if_pos (by omega)]
  rfl

theorem utf8EncodeChar_of_not_ascii (h : 0x80 ≤ c.toNat) :
    2 ≤ (String.utf8EncodeChar c).length ∧ ∀ b ∈ String.utf8EncodeChar c, 0x80 ≤ b.toNat := by
  simp only [String.utf8EncodeChar, toNat_val]
  rw [if_neg (by omega)]
  split_ifs <;> constructor <;>
    simp only [List.length_cons, List.length_nil, List.forall_mem_cons, List.not_mem_nil,
      UInt8.toNat_ofNat', false_imp_iff, implies_true, and_true] <;> omega

theorem toNat_toUInt8 (h : c.toNat < 0x80) : c.toUInt8.toNat = c.toNat := by
  show c.val.toNat % 256 = c.val.toNat
  rw [toNat_val]
  omega

theorem byteAsChar_toUInt8 (h : c.toNat < 0x80) : byteAsChar c.toUInt8 = c := by
  rw [byteAsChar, toNat_toUInt8 h, Char.ofNat_toNat]

theorem readKey_of_ascii (h : c.toNat < 0x80) : readKey c = [c] := by
  rw [readKey, utf8EncodeChar_of_ascii h, List.map_singleton, byteAsChar_toUInt8 h]

theorem readValue_of_ascii (h : c.toNat < 0x80) : readValue c = [c] := by
  rw [readValue, readKey_of_ascii h, ite_self]

/-! ## Strings -/

variable {b : UInt8}

section Steps

variable (result : List Char) (rest : List UInt8)

theorem stringBody_quote :
    stringBody result (quote.toUInt8 :: rest) = some (result, rest) := by
  rw [stringBody.eq_def]
  exact if_pos rfl

theorem stringBody_char (hq : b ≠ quote.toUInt8) (hb : b ≠ backslash.toUInt8) :
    stringBody result (b :: rest) = stringBody (result ++ [byteAsChar b]) rest := by
  rw [stringBody.eq_def]
  exact (if_neg hq).trans (if_neg hb)

theorem stringBody_letter {e : UInt8} (h : unescape e = some c) :
    stringBody result (backslash.toUInt8 :: e :: rest) = stringBody (result ++ [c]) rest := by
  rw [stringBody.eq_def]
  refine (if_neg (by decide)).trans ((if_pos rfl).trans ?_)
  simp only [h]

theorem stringBody_hex {d₁ d₂ d₃ d₄ : UInt8} {x₁ x₂ x₃ x₄ : ℕ} (h₁ : hexDigit d₁ = some x₁)
    (h₂ : hexDigit d₂ = some x₂) (h₃ : hexDigit d₃ = some x₃) (h₄ : hexDigit d₄ = some x₄)
    (hc : charFromU32 (((x₁ * 16 + x₂) * 16 + x₃) * 16 + x₄) = some c) :
    stringBody result (backslash.toUInt8 :: 'u'.toUInt8 :: d₁ :: d₂ :: d₃ :: d₄ :: rest) =
      stringBody (result ++ [c]) rest := by
  rw [stringBody.eq_def]
  refine (if_neg (by decide)).trans ((if_pos rfl).trans ?_)
  simp only [show unescape 'u'.toUInt8 = none by decide, if_pos, h₁, h₂, h₃, h₄, hc]

end Steps

/-- Bytes that are neither a quote nor a backslash are characters of their own. -/
theorem stringBody_raw {bs : List UInt8} (hq : ∀ b ∈ bs, b ≠ quote.toUInt8)
    (hb : ∀ b ∈ bs, b ≠ backslash.toUInt8) (result : List Char) (rest : List UInt8) :
    stringBody result (bs ++ rest) = stringBody (result ++ bs.map byteAsChar) rest := by
  induction bs generalizing result with
  | nil => simp
  | cons b bs ih =>
    rw [List.forall_mem_cons] at hq hb
    rw [List.cons_append, stringBody_char _ _ hq.1 hb.1, ih hq.2 hb.2]
    simp

theorem stringBody_utf8EncodeChar (hq : c ≠ quote) (hb : c ≠ backslash) (result : List Char)
    (rest : List UInt8) :
    stringBody result (String.utf8EncodeChar c ++ rest) = stringBody (result ++ readKey c) rest := by
  have hne (d : Char) (hd : d.toNat < 0x80) (hcd : c ≠ d) :
      ∀ b ∈ String.utf8EncodeChar c, b ≠ d.toUInt8 := by
    intro b hmem heq
    obtain hlt | hge := Nat.lt_or_ge c.toNat 0x80
    · rw [utf8EncodeChar_of_ascii hlt, List.mem_singleton] at hmem
      have hchar : byteAsChar c.toUInt8 = byteAsChar d.toUInt8 := by rw [← hmem, heq]
      rw [byteAsChar_toUInt8 hlt, byteAsChar_toUInt8 hd] at hchar
      exact hcd hchar
    · have := (utf8EncodeChar_of_not_ascii hge).2 b hmem
      rw [heq, toNat_toUInt8 hd] at this
      omega
  exact stringBody_raw (hne quote (by decide) hq) (hne backslash (by decide) hb) result rest

/-- The four digits of a `u` escape, as the parser reads them. -/
def hexReads (n : ℕ) : Bool :=
  match asBytes (hex4 n) with
  | [d₁, d₂, d₃, d₄] =>
    match hexDigit d₁, hexDigit d₂, hexDigit d₃, hexDigit d₄ with
    | some x₁, some x₂, some x₃, some x₄ => ((x₁ * 16 + x₂) * 16 + x₃) * 16 + x₄ == n
    | _, _, _, _ => false
  | _ => false

theorem hexReads_of_lt : ∀ n < 0xa0, hexReads n = true := by decide +kernel

theorem stringBody_control (hc : isControl c = true) (result : List Char) (rest : List UInt8) :
    stringBody result (asBytes (backslash :: 'u' :: hex4 c.toNat) ++ rest) =
      stringBody (result ++ [c]) rest := by
  have hlt : c.toNat < 0xa0 := by
    simp [isControl] at hc
    omega
  have hreads := hexReads_of_lt c.toNat hlt
  have hchar : charFromU32 c.toNat = some c := by
    rw [charFromU32, if_pos (show c.toNat.isValidChar from c.valid), Char.ofNat_toNat]
  rw [asBytes_cons, asBytes_cons, utf8EncodeChar_of_ascii (by decide),
    utf8EncodeChar_of_ascii (by decide)]
  rw [hexReads] at hreads
  split at hreads
  · next d₁ d₂ d₃ d₄ hbytes =>
    rw [hbytes]
    split at hreads
    · next x₁ x₂ x₃ x₄ h₁ h₂ h₃ h₄ =>
      refine stringBody_hex result rest h₁ h₂ h₃ h₄ ?_
      rw [beq_iff_eq.mp hreads, hchar]
    · cases hreads
  · cases hreads

/-- An escape of one letter. -/
theorem stringBody_escape {d : Char} {read : List Char} (hd : d.toNat < 0x80)
    (h : unescape d.toUInt8 = some c) (hread : read = [c]) (result : List Char) (rest : List UInt8)
    :
    stringBody result (asBytes [backslash, d] ++ rest) = stringBody (result ++ read) rest := by
  rw [asBytes_cons, asBytes_cons, utf8EncodeChar_of_ascii (by decide), utf8EncodeChar_of_ascii hd,
    hread]
  exact stringBody_letter result rest h

theorem stringBody_escapeValue (c : Char) (result : List Char) (rest : List UInt8) :
    stringBody result (asBytes (escapeValue c) ++ rest) = stringBody (result ++ readValue c) rest := by
  rw [escapeValue]
  split_ifs with h h h h h h h hctl
  iterate 7
    · subst h
      exact stringBody_escape (by decide) (by decide) (readValue_of_ascii (by decide)) result rest
  · rw [readValue, if_pos hctl]
    exact stringBody_control hctl result rest
  · rw [readValue, if_neg hctl, asBytes_cons, asBytes, List.flatMap_nil, List.append_nil]
    exact stringBody_utf8EncodeChar ‹_› ‹_› result rest

theorem stringBody_escapeKey (c : Char) (result : List Char) (rest : List UInt8) :
    stringBody result (asBytes (escapeKey c) ++ rest) = stringBody (result ++ readKey c) rest := by
  rw [escapeKey]
  split_ifs with h h h h h
  iterate 5
    · subst h
      exact stringBody_escape (by decide) (by decide) (readKey_of_ascii (by decide)) result rest
  · rw [asBytes_cons, asBytes, List.flatMap_nil, List.append_nil]
    exact stringBody_utf8EncodeChar ‹_› ‹_› result rest

section

variable {escape read : Char → List Char}
  (h : ∀ c result rest, stringBody result (asBytes (escape c) ++ rest) = stringBody (result ++ read c) rest)

include h

/-- A whole string, whatever its escapes are, up to the closing quote. -/
theorem stringBody_flatMap (s result : List Char) (rest : List UInt8) :
    stringBody result (asBytes (s.flatMap escape ++ [quote]) ++ rest) =
      some (result ++ s.flatMap read, rest) := by
  induction s generalizing result with
  | nil =>
    rw [List.flatMap_nil, List.nil_append, List.flatMap_nil, List.append_nil]
    exact stringBody_quote result rest
  | cons c s ih =>
    rw [List.flatMap_cons, List.append_assoc, asBytes_append, List.append_assoc, h, ih,
      List.flatMap_cons, List.append_assoc]

theorem parseString_flatMap (s : List Char) (rest : List UInt8) (t : NodeTable) :
    parseString (asBytes (quote :: s.flatMap escape ++ [quote]) ++ rest) t =
      allocNode (.str (s.flatMap read)) rest t := by
  have hbody := stringBody_flatMap h s [] rest
  rw [List.cons_append, asBytes_cons, utf8EncodeChar_of_ascii (by decide), List.append_assoc,
    List.singleton_append, parseString, if_pos rfl, hbody]
  rfl

end

/-! ## Numbers -/

/-- The input after a number does not go on with it. -/
def Stops (rest : List UInt8) : Prop :=
  ∀ b ∈ rest.head?, isDigit b = false ∧ b ≠ '.'.toUInt8 ∧ b ≠ 'e'.toUInt8 ∧ b ≠ 'E'.toUInt8

/-- The digits of a number are ASCII characters. -/
theorem asBytes_toDigits (n : ℕ) : asBytes (Nat.toDigits 10 n) = Decimal.digits n := by
  have hdigit : ∀ c ∈ Nat.toDigits 10 n, c.isDigit = true :=
    fun _ hc => Nat.isDigit_of_mem_toDigits (by decide) (by decide) hc
  rw [Decimal.digits]
  generalize Nat.toDigits 10 n = ds at hdigit ⊢
  induction ds with
  | nil => rfl
  | cons c ds ih =>
    rw [List.forall_mem_cons] at hdigit
    have hn := Decimal.toNat_of_isDigit hdigit.1
    rw [asBytes_cons, utf8EncodeChar_of_ascii (by omega), ih hdigit.2, List.map_cons,
      List.singleton_append]

theorem isDigit_asBytes_toDigits (n : ℕ) : ∀ b ∈ asBytes (Nat.toDigits 10 n), isDigit b = true := by
  rw [asBytes_toDigits]
  exact fun b hb => Decimal.isDigit_of_mem_digits hb

theorem digitsValue_toDigits (n : ℕ) : digitsValue (asBytes (Nat.toDigits 10 n)) = n := by
  rw [asBytes_toDigits]
  exact Decimal.value_digits n

variable {rest : List UInt8}

theorem takeDigits_append {ds : List UInt8} (hds : ∀ b ∈ ds, isDigit b = true) (hne : ds ≠ [])
    (h : Stops rest) : takeDigits (ds ++ rest) = some (ds, rest) := by
  have htake : rest.takeWhile isDigit = [] := by
    cases rest with
    | nil => rfl
    | cons b rest => exact List.takeWhile_cons_of_neg (by simp [(h b rfl).1])
  have hdrop : rest.dropWhile isDigit = rest := by
    cases rest with
    | nil => rfl
    | cons b rest => exact List.dropWhile_cons_of_neg (by simp [(h b rfl).1])
  rw [takeDigits, List.takeWhile_append_of_pos hds, List.dropWhile_append_of_pos hds, htake, hdrop,
    List.append_nil, if_neg (by simpa using hne)]

theorem asBytes_toDigits_ne_nil (n : ℕ) : asBytes (Nat.toDigits 10 n) ≠ [] := by
  rw [asBytes_toDigits]
  exact Decimal.digits_ne_nil n

theorem takeFraction_of_stops (h : Stops rest) : takeFraction rest = some ([], rest) := by
  cases rest with
  | nil => rfl
  | cons b rest => exact if_neg (h b rfl).2.1

theorem takeExponent_of_stops (h : Stops rest) : takeExponent rest = some (0, rest) := by
  cases rest with
  | nil => rfl
  | cons b rest => exact if_neg (not_or.mpr (h b rfl).2.2)

theorem takeSign_displayI64 (z : ℤ) (rest : List UInt8) :
    takeSign (asBytes (displayI64 z) ++ rest) =
      (decide (z < 0), asBytes (Nat.toDigits 10 z.natAbs) ++ rest) := by
  rw [displayI64]
  by_cases hz : z < 0
  · rw [if_pos hz, asBytes_cons, utf8EncodeChar_of_ascii (by decide), decide_eq_true hz,
      List.append_assoc, List.singleton_append, takeSign, if_pos rfl]
  · rw [if_neg hz, decide_eq_false hz]
    obtain ⟨b, bs, hbs⟩ := List.exists_cons_of_ne_nil (asBytes_toDigits_ne_nil z.natAbs)
    have hdigit := isDigit_asBytes_toDigits z.natAbs b (by rw [hbs]; exact List.mem_cons_self)
    rw [hbs]
    refine if_neg ?_
    rintro rfl
    exact absurd hdigit (by decide)

theorem parseNumber_displayI64 {z : ℤ} (hz : z.natAbs ≤ 2 ^ 53) (h : Stops rest) (t : NodeTable) :
    parseNumber (asBytes (displayI64 z) ++ rest) t =
      allocNode (.number (Float.Model.ofInt z)) rest t := by
  have htake := takeDigits_append (isDigit_asBytes_toDigits z.natAbs)
    (asBytes_toDigits_ne_nil z.natAbs) h
  simp only [parseNumber, takeSign_displayI64, htake, takeFraction_of_stops h,
    takeExponent_of_stops h, List.append_nil, digitsValue_toDigits, List.length_nil, Int.ofNat_zero,
    Int.sub_zero, Binary64.ofDecimal_natAbs hz]

theorem stringifyNumber_ofInt {z : ℤ} (hz : z.natAbs ≤ 2 ^ 53) :
    stringifyNumber (Float.Model.ofInt z) = displayI64 z := by
  rw [stringifyNumber, Binary64.isFinite_ofInt hz, Binary64.isIntegral_ofInt hz, if_neg (by decide),
    if_pos ⟨rfl, Binary64.ofInt_between hz⟩, Binary64.toInt64_ofInt hz]

/-! ## Tables that grow -/

/-- `T'` is `T` with nodes added, and these make `P` true, in whatever table they are found. -/
structure Grown (T T' : NodeTable) (P : (Handle → Option JsonNode) → Prop) : Prop where
  le : T.nextId ≤ T'.nextId
  old : ∀ k < T.nextId, T'.map k = T.map k
  new : ∀ map, (∀ k, T.nextId ≤ k → k < T'.nextId → map k = T'.map k) → P map

namespace Grown

variable {T T' T'' : NodeTable} {P Q : (Handle → Option JsonNode) → Prop}

theorem holds (h : Grown T T' P) : P T'.map := h.new T'.map fun _ _ _ => rfl

theorem mono (h : Grown T T' P) (hPQ : ∀ map, P map → Q map) : Grown T T' Q :=
  ⟨h.le, h.old, fun map hmap => hPQ map (h.new map hmap)⟩

theorem trans (h : Grown T T' P) (h' : Grown T' T'' Q) :
    Grown T T'' fun map => P map ∧ Q map where
  le := h.le.trans h'.le
  old k hk := (h'.old k (hk.trans_le h.le)).trans (h.old k hk)
  new map hmap := by
    refine ⟨h.new map fun k hlo hhi => ?_, h'.new map fun k hlo hhi => hmap k (h.le.trans hlo) hhi⟩
    rw [hmap k hlo (hhi.trans_le h'.le), h'.old k hhi]

theorem insert (T : NodeTable) (node : JsonNode) :
    Grown T (T.insert node).2 fun map => map T.nextId = some node where
  le := (lt_add_one T.nextId).le
  old k hk := Function.update_of_ne hk.ne _ _
  new map hmap := by
    rw [hmap T.nextId le_rfl (lt_add_one T.nextId)]
    exact Function.update_self ..

theorem refl (T : NodeTable) : Grown T T fun _ => True := ⟨le_rfl, fun _ _ => rfl, fun _ _ => trivial⟩

end Grown

/-! ## Documents, parsed -/

theorem skipWhitespace_cons (hb : isSpace b = false) (rest : List UInt8) :
    skipWhitespace (b :: rest) = b :: rest :=
  List.dropWhile_cons_of_neg (by simp [hb])

theorem asBytes_letter (hc : c.toNat < 0x80) (s : List Char) :
    asBytes (c :: s) = c.toUInt8 :: asBytes s := by
  rw [asBytes_cons, utf8EncodeChar_of_ascii hc, List.singleton_append]

/-- The text of the document starts with no space and no bracket, and with enough fuel the parser
reads it up to its end. -/
structure Reads (t : Tree) : Prop where
  head : ∃ b bs, asBytes t.text = b :: bs ∧ isSpace b = false ∧ b ≠ ']'.toUInt8
  parse : ∀ rest, Stops rest → ∀ T, ∃ N h T',
    (∀ fuel ≥ N, parseValue fuel (asBytes t.text ++ rest) T = .ok (h, rest, T')) ∧
      Grown T T' fun map => Denotes map h t.readBack

/-- A document of one node, which takes one step. -/
theorem Reads.leaf {t : Tree} {node : JsonNode}
    (head : ∃ b bs, asBytes t.text = b :: bs ∧ isSpace b = false ∧ b ≠ ']'.toUInt8)
    (hparse : ∀ fuel rest T, Stops rest →
      parseValue (fuel + 1) (asBytes t.text ++ rest) T = allocNode node rest T)
    (hdenotes : ∀ map h, map h = some node → Denotes map h t.readBack) : Reads t where
  head
  parse rest hrest T := by
    refine ⟨1, T.nextId, (T.insert node).2, fun fuel hfuel => ?_,
      (Grown.insert T node).mono fun map => hdenotes map T.nextId⟩
    obtain ⟨fuel, rfl⟩ := Nat.exists_eq_add_of_le' hfuel
    exact hparse fuel rest T hrest

theorem reads_null : Reads .null :=
  .leaf ⟨_, _, rfl, by decide, by decide⟩ (fun _ _ _ _ => rfl) fun _ _ h => h

theorem reads_bool (b : Bool) : Reads (.bool b) := by
  cases b
  · exact .leaf ⟨_, _, rfl, by decide, by decide⟩ (fun _ _ _ _ => rfl) fun _ _ h => h
  · exact .leaf ⟨_, _, rfl, by decide, by decide⟩ (fun _ _ _ _ => rfl) fun _ _ h => h

theorem reads_str (s : List Char) : Reads (.str s) := by
  have hhead : asBytes (Tree.str s).text =
      quote.toUInt8 :: asBytes (s.flatMap escapeValue ++ [quote]) := by
    rw [Tree.text, List.cons_append, asBytes_letter (by decide)]
  refine .leaf ⟨_, _, hhead, by decide, by decide⟩ (fun fuel rest T _ => ?_) fun _ _ h => h
  have hparse := parseString_flatMap stringBody_escapeValue s rest T
  rw [← Tree.text, hhead] at hparse
  rw [hhead, List.cons_append, parseValue, skipWhitespace_cons (by decide)]
  exact hparse

/-- The bytes a number starts with. -/
def startsNumber (b : UInt8) : Bool := b = '-'.toUInt8 || isDigit b

theorem ne_of_startsNumber {c : UInt8} (hb : startsNumber b = true) (hc : startsNumber c = false) :
    b ≠ c := by
  rintro rfl
  rw [hb] at hc
  cases hc

theorem isSpace_of_startsNumber (hb : startsNumber b = true) : isSpace b = false := by
  have h (c : UInt8) (hc : startsNumber c = false) := ne_of_startsNumber hb hc
  simp [isSpace, h ' '.toUInt8 (by decide), h '\t'.toUInt8 (by decide), h '\n'.toUInt8 (by decide),
    h '\r'.toUInt8 (by decide)]

theorem parseValue_number (hb : startsNumber b = true) (fuel : ℕ) (rest : List UInt8)
    (T : NodeTable) : parseValue (fuel + 1) (b :: rest) T = parseNumber (b :: rest) T := by
  have h (c : UInt8) (hc : startsNumber c = false) : b ≠ c := ne_of_startsNumber hb hc
  rw [parseValue, skipWhitespace_cons (isSpace_of_startsNumber hb)]
  show (if _ then _ else _) = _
  rw [if_neg (h _ (by decide)), if_neg (not_or.mpr ⟨h _ (by decide), h _ (by decide)⟩),
    if_neg (h _ (by decide)), if_neg (h _ (by decide)), if_neg (h _ (by decide)),
    if_pos (by simpa [startsNumber] using hb)]

theorem startsNumber_displayI64 (z : ℤ) :
    ∃ b bs, asBytes (displayI64 z) = b :: bs ∧ startsNumber b = true := by
  rw [displayI64]
  split_ifs
  · exact ⟨_, _, asBytes_letter (by decide) _, by decide⟩
  · obtain ⟨b, bs, hbs⟩ := List.exists_cons_of_ne_nil (asBytes_toDigits_ne_nil z.natAbs)
    have hdigit := isDigit_asBytes_toDigits z.natAbs b (by rw [hbs]; exact List.mem_cons_self)
    exact ⟨b, bs, hbs, by simp [startsNumber, hdigit]⟩

theorem reads_number {z : ℤ} (hz : z.natAbs ≤ 2 ^ 53) : Reads (.number (Float.Model.ofInt z)) := by
  have htext : (Tree.number (Float.Model.ofInt z)).text = displayI64 z := by
    rw [Tree.text, stringifyNumber_ofInt hz]
  obtain ⟨b, bs, hbs, hb⟩ := startsNumber_displayI64 z
  refine .leaf ⟨b, bs, by rw [htext, hbs], isSpace_of_startsNumber hb,
    ne_of_startsNumber hb (by decide)⟩ (fun fuel rest T hrest => ?_) fun _ _ h => h
  have hparse := parseNumber_displayI64 hz hrest T
  rw [htext, hbs, List.cons_append, parseValue_number hb]
  rwa [hbs, List.cons_append] at hparse

theorem stops_cons
    (h : isDigit c.toUInt8 = false ∧ c.toUInt8 ≠ '.'.toUInt8 ∧
    c.toUInt8 ≠ 'e'.toUInt8 ∧ c.toUInt8 ≠ 'E'.toUInt8) (rest : List UInt8) :
    Stops (c.toUInt8 :: rest) := by
  intro b hb
  obtain rfl : c.toUInt8 = b := by simpa using hb
  exact h

theorem intercalate_cons_cons (a b : List Char) (l : List (List Char)) :
    [','].intercalate (a :: b :: l) = a ++ ',' :: [','].intercalate (b :: l) := by
  simp [List.intercalate, List.intersperse]

theorem parseValue_bracket (fuel : ℕ) (input : List UInt8) (T : NodeTable) :
    parseValue (fuel + 1) ('['.toUInt8 :: input) T = parseArray fuel ('['.toUInt8 :: input) T := by
  rw [parseValue, skipWhitespace_cons (by decide)]
  rfl

theorem parseValue_brace (fuel : ℕ) (input : List UInt8) (T : NodeTable) :
    parseValue (fuel + 1) ('{'.toUInt8 :: input) T = parseObject fuel ('{'.toUInt8 :: input) T := by
  rw [parseValue, skipWhitespace_cons (by decide)]
  rfl

section Loops

variable {fuel : ℕ} {items : List Handle} {pairs : List (List Char × Handle)} {key : List Char}
  {input rest : List UInt8} {v : Handle} {T T' : NodeTable}

theorem arrayItems_close (h : parseValue fuel input T = .ok (v, ']'.toUInt8 :: rest, T')) :
    arrayItems (fuel + 1) items input T = allocNode (.array (items ++ [v])) rest T' := by
  rw [arrayItems, h]
  rfl

theorem arrayItems_comma (h : parseValue fuel input T = .ok (v, ','.toUInt8 :: rest, T')) :
    arrayItems (fuel + 1) items input T =
      arrayItems fuel (items ++ [v]) (skipWhitespace rest) T' := by
  rw [arrayItems, h]
  rfl

/-- The key of a member, read back from its node. -/
theorem objectPairs_key :
    objectPairs (fuel + 1) pairs (asBytes (quote :: key.flatMap escapeKey ++ [quote, ':']) ++ input) T
      = (parseValue fuel input (T.insert (.str (key.flatMap readKey))).2 >>= fun p =>
          match skipWhitespace p.2.1 with
          | b :: rest =>
            if b = ','.toUInt8 then
              objectPairs fuel (pairs ++ [(key.flatMap readKey, p.1)]) (skipWhitespace rest) p.2.2
            else if b = '}'.toUInt8 then
              allocNode (.object (pairs ++ [(key.flatMap readKey, p.1)])) rest p.2.2
            else .err p.2.2
          | [] => .err p.2.2) := by
  have hparse := parseString_flatMap stringBody_escapeKey key (':'.toUInt8 :: input) T
  have hinput : asBytes (quote :: key.flatMap escapeKey ++ [quote, ':']) ++ input =
      asBytes (quote :: key.flatMap escapeKey ++ [quote]) ++ ':'.toUInt8 :: input := by
    have hcolon : asBytes [quote, ':'] = asBytes [quote] ++ [':'.toUInt8] := rfl
    rw [asBytes_append, hcolon, asBytes_append, List.append_assoc, List.append_assoc,
      List.append_assoc, List.singleton_append]
  have hget : (T.insert (.str (key.flatMap readKey))).2.get T.nextId =
      some (.str (key.flatMap readKey)) := Function.update_self ..
  rw [objectPairs, hinput, hparse, allocNode, Outcome.ok_bind]
  simp only [show (T.insert (.str (key.flatMap readKey))).1 = T.nextId from rfl, hget]
  rfl

theorem objectPairs_close
    (h : parseValue fuel input (T.insert (.str (key.flatMap readKey))).2 =
      .ok (v, '}'.toUInt8 :: rest, T')) :
    objectPairs (fuel + 1) pairs (asBytes (quote :: key.flatMap escapeKey ++ [quote, ':']) ++ input) T
      = allocNode (.object (pairs ++ [(key.flatMap readKey, v)])) rest T' := by
  rw [objectPairs_key, h]
  rfl

theorem objectPairs_comma
    (h : parseValue fuel input (T.insert (.str (key.flatMap readKey))).2 =
      .ok (v, ','.toUInt8 :: rest, T')) :
    objectPairs (fuel + 1) pairs (asBytes (quote :: key.flatMap escapeKey ++ [quote, ':']) ++ input) T
      = objectPairs fuel (pairs ++ [(key.flatMap readKey, v)]) (skipWhitespace rest) T' := by
  rw [objectPairs_key, h]
  rfl

end Loops

/-- A list of texts starts as its first text does. -/
theorem asBytes_intercalate_cons {a : List Char} {bs : List UInt8} (h : asBytes a = b :: bs)
    (l : List (List Char)) : ∃ cs, asBytes ([','].intercalate (a :: l)) = b :: cs := by
  cases l with
  | nil =>
    refine ⟨bs, ?_⟩
    simpa [List.intercalate] using h
  | cons a' l =>
    rw [intercalate_cons_cons, asBytes_append, h]
    exact ⟨_, rfl⟩

theorem asBytes_intercalate_cons_cons (a a' : List Char) (l : List (List Char)) (rest : List UInt8) :
    asBytes ([','].intercalate (a :: a' :: l)) ++ rest =
      asBytes a ++ ','.toUInt8 :: (asBytes ([','].intercalate (a' :: l)) ++ rest) := by
  rw [intercalate_cons_cons, asBytes_append, asBytes_letter (by decide), List.append_assoc,
    List.cons_append]

variable {ts : List Tree}

/-- The items of an array, at least one, up to the closing bracket. -/
theorem arrayItems_reads (hne : ts ≠ []) (h : ∀ t ∈ ts, Reads t) :
    ∀ items rest T, ∃ N hs T',
      (∀ fuel ≥ N, arrayItems fuel items
        (asBytes ([','].intercalate (Tree.textItems ts)) ++ ']'.toUInt8 :: rest) T =
          allocNode (.array (items ++ hs)) rest T') ∧
        Grown T T' fun map => DenotesItems map hs (Tree.readBackItems ts) := by
  induction ts with
  | nil => exact absurd rfl hne
  | cons t ts ih =>
    intro items rest T
    rw [List.forall_mem_cons] at h
    cases ts with
    | nil =>
      obtain ⟨N, v, T', hparse, hgrown⟩ := h.1.parse (']'.toUInt8 :: rest)
        (stops_cons (by decide) rest) T
      refine ⟨N + 1, [v], T', fun fuel hfuel => ?_, hgrown.mono fun map hv => ⟨hv, trivial⟩⟩
      obtain ⟨fuel, rfl⟩ : ∃ k, fuel = k + 1 := ⟨fuel - 1, by omega⟩
      have htext : [','].intercalate (Tree.textItems [t]) = t.text := by
        simp [List.intercalate, Tree.textItems]
      rw [htext]
      exact arrayItems_close (hparse fuel (by omega))
    | cons t' ts =>
      -- after the comma the loop goes on with the remaining items, which start with no space
      obtain ⟨b, bs, hbs, hspace, _⟩ := (h.2 t' List.mem_cons_self).head
      obtain ⟨cs, hcs⟩ := asBytes_intercalate_cons hbs (Tree.textItems ts)
      have htext := asBytes_intercalate_cons_cons t.text t'.text (Tree.textItems ts)
        (']'.toUInt8 :: rest)
      obtain ⟨N, v, T', hparse, hgrown⟩ := h.1.parse (','.toUInt8 ::
        (asBytes ([','].intercalate (t'.text :: Tree.textItems ts)) ++ ']'.toUInt8 :: rest))
        (stops_cons (by decide) _) T
      obtain ⟨N', hs, T'', hitems, hgrown'⟩ := ih (List.cons_ne_nil t' ts) h.2 (items ++ [v]) rest T'
      refine ⟨max N N' + 1, v :: hs, T'', fun fuel hfuel => ?_, hgrown.trans hgrown'⟩
      obtain ⟨fuel, rfl⟩ : ∃ k, fuel = k + 1 := ⟨fuel - 1, by omega⟩
      rw [Tree.textItems, Tree.textItems, htext, arrayItems_comma (hparse fuel (by omega)), hcs,
        List.cons_append, skipWhitespace_cons hspace, ← List.cons_append, ← hcs, ← Tree.textItems,
        hitems fuel (by omega), List.append_assoc, List.singleton_append]

theorem reads_array (h : ∀ t ∈ ts, Reads t) : Reads (.array ts) where
  head := ⟨_, _, asBytes_letter (by decide) _, by decide, by decide⟩
  parse := by
    intro rest _ T
    cases ts with
    | nil =>
      refine ⟨2, T.nextId, (T.insert (.array [])).2, fun fuel hfuel => ?_,
        (Grown.insert T (.array [])).mono fun map hmap => ⟨[], hmap, trivial⟩⟩
      obtain ⟨fuel, rfl⟩ := Nat.exists_eq_add_of_le' hfuel
      rfl
    | cons t ts =>
      obtain ⟨b, bs, hbs, hspace, hclose⟩ := (h t List.mem_cons_self).head
      obtain ⟨cs, hcs⟩ := asBytes_intercalate_cons hbs (Tree.textItems ts)
      obtain ⟨N, hs, T', hitems, hgrown⟩ := arrayItems_reads (List.cons_ne_nil t ts) h [] rest T
      refine ⟨N + 2, T'.nextId, (T'.insert (.array hs)).2, fun fuel hfuel => ?_,
        (hgrown.trans (Grown.insert T' (.array hs))).mono fun map hmap => ⟨hs, hmap.2, hmap.1⟩⟩
      obtain ⟨fuel, rfl⟩ : ∃ k, fuel = k + 2 := ⟨fuel - 2, by omega⟩
      have htext : asBytes (Tree.array (t :: ts)).text ++ rest =
          '['.toUInt8 :: (asBytes ([','].intercalate (Tree.textItems (t :: ts))) ++
            ']'.toUInt8 :: rest) := by
        rw [Tree.text, List.cons_append, asBytes_letter (by decide), asBytes_append,
          asBytes_letter (by decide), List.cons_append, List.append_assoc]
        rfl
      have harray : parseArray (fuel + 1) ('['.toUInt8 :: (b :: cs ++ ']'.toUInt8 :: rest)) T =
          arrayItems fuel [] (b :: cs ++ ']'.toUInt8 :: rest) T := by
        rw [parseArray, if_pos rfl, List.cons_append, skipWhitespace_cons hspace]
        exact if_neg hclose
      rw [htext, parseValue_bracket, Tree.textItems, hcs, harray, ← hcs]
      exact hitems fuel (by omega)

/-- The text of a member starts with a quote. -/
theorem asBytes_member (k : List Char) (t : Tree) :
    ∃ bs, asBytes (quote :: k.flatMap escapeKey ++ [quote, ':'] ++ t.text) = quote.toUInt8 :: bs :=
  ⟨_, asBytes_letter (by decide) _⟩

variable {ps : List (List Char × Tree)}

/-- The members of an object, at least one, up to the closing brace. -/
theorem objectPairs_reads (hne : ps ≠ []) (h : ∀ p ∈ ps, Reads p.2) :
    ∀ pairs rest T, ∃ N hs T',
      (∀ fuel ≥ N, objectPairs fuel pairs
        (asBytes ([','].intercalate (Tree.textPairs ps)) ++ '}'.toUInt8 :: rest) T =
          allocNode (.object (pairs ++ hs)) rest T') ∧
        Grown T T' fun map => DenotesPairs map hs (Tree.readBackPairs ps) := by
  induction ps with
  | nil => exact absurd rfl hne
  | cons p ps ih =>
    obtain ⟨k, t⟩ := p
    intro pairs rest T
    rw [List.forall_mem_cons] at h
    cases ps with
    | nil =>
      obtain ⟨N, v, T', hparse, hgrown⟩ := h.1.parse ('}'.toUInt8 :: rest)
        (stops_cons (by decide) rest) (T.insert (.str (k.flatMap readKey))).2
      refine ⟨N + 1, [(k.flatMap readKey, v)], T', fun fuel hfuel => ?_,
        ((Grown.insert T _).trans hgrown).mono fun map hv => ⟨⟨rfl, hv.2⟩, trivial⟩⟩
      obtain ⟨fuel, rfl⟩ : ∃ k, fuel = k + 1 := ⟨fuel - 1, by omega⟩
      have htext : [','].intercalate (Tree.textPairs [(k, t)]) =
          quote :: k.flatMap escapeKey ++ [quote, ':'] ++ t.text := by
        simp [List.intercalate, Tree.textPairs]
      rw [htext, asBytes_append, List.append_assoc]
      exact objectPairs_close (hparse fuel (by omega))
    | cons p' ps =>
      obtain ⟨k', t'⟩ := p'
      obtain ⟨bs, hbs⟩ := asBytes_member k' t'
      obtain ⟨cs, hcs⟩ := asBytes_intercalate_cons hbs (Tree.textPairs ps)
      obtain ⟨N, v, T', hparse, hgrown⟩ := h.1.parse (','.toUInt8 ::
        (asBytes ([','].intercalate (Tree.textPairs ((k', t') :: ps))) ++ '}'.toUInt8 :: rest))
        (stops_cons (by decide) _) (T.insert (.str (k.flatMap readKey))).2
      obtain ⟨N', hs, T'', hpairs, hgrown'⟩ :=
        ih (List.cons_ne_nil (k', t') ps) h.2 (pairs ++ [(k.flatMap readKey, v)]) rest T'
      refine ⟨max N N' + 1, (k.flatMap readKey, v) :: hs, T'', fun fuel hfuel => ?_,
        (((Grown.insert T _).trans hgrown).trans hgrown').mono
          fun map hv => ⟨⟨rfl, hv.1.2⟩, hv.2⟩⟩
      obtain ⟨fuel, rfl⟩ : ∃ k, fuel = k + 1 := ⟨fuel - 1, by omega⟩
      rw [Tree.textPairs, Tree.textPairs, asBytes_intercalate_cons_cons, ← Tree.textPairs,
        asBytes_append, List.append_assoc, objectPairs_comma (hparse fuel (by omega)),
        Tree.textPairs, hcs, List.cons_append, skipWhitespace_cons (by decide), ← List.cons_append,
        ← hcs, ← Tree.textPairs, hpairs fuel (by omega), List.append_assoc, List.singleton_append]

theorem reads_object (h : ∀ p ∈ ps, Reads p.2) : Reads (.object ps) where
  head := ⟨_, _, asBytes_letter (by decide) _, by decide, by decide⟩
  parse := by
    intro rest _ T
    cases ps with
    | nil =>
      refine ⟨2, T.nextId, (T.insert (.object [])).2, fun fuel hfuel => ?_,
        (Grown.insert T (.object [])).mono fun map hmap => ⟨[], hmap, trivial⟩⟩
      obtain ⟨fuel, rfl⟩ := Nat.exists_eq_add_of_le' hfuel
      rfl
    | cons p ps =>
      obtain ⟨k, t⟩ := p
      obtain ⟨bs, hbs⟩ := asBytes_member k t
      obtain ⟨cs, hcs⟩ := asBytes_intercalate_cons hbs (Tree.textPairs ps)
      obtain ⟨N, hs, T', hpairs, hgrown⟩ := objectPairs_reads (List.cons_ne_nil (k, t) ps) h [] rest T
      refine ⟨N + 2, T'.nextId, (T'.insert (.object hs)).2, fun fuel hfuel => ?_,
        (hgrown.trans (Grown.insert T' (.object hs))).mono fun map hmap => ⟨hs, hmap.2, hmap.1⟩⟩
      obtain ⟨fuel, rfl⟩ : ∃ k, fuel = k + 2 := ⟨fuel - 2, by omega⟩
      have htext : asBytes (Tree.object ((k, t) :: ps)).text ++ rest =
          '{'.toUInt8 :: (asBytes ([','].intercalate (Tree.textPairs ((k, t) :: ps))) ++
            '}'.toUInt8 :: rest) := by
        rw [Tree.text, List.cons_append, asBytes_letter (by decide), asBytes_append,
          asBytes_letter (by decide), List.cons_append, List.append_assoc]
        rfl
      have hobject : parseObject (fuel + 1)
          ('{'.toUInt8 :: (quote.toUInt8 :: cs ++ '}'.toUInt8 :: rest)) T =
          objectPairs fuel [] (quote.toUInt8 :: cs ++ '}'.toUInt8 :: rest) T := by
        rw [parseObject, if_pos rfl, List.cons_append, skipWhitespace_cons (by decide)]
        exact if_neg (by decide)
      rw [htext, parseValue_brace, Tree.textPairs, hcs, hobject, ← hcs]
      exact hpairs fuel (by omega)

theorem Tree.allItems_iff {num : Float.Model → Prop} {str key : List Char → Prop} :
    Tree.AllItems num str key ts ↔ ∀ t ∈ ts, t.All num str key := by
  induction ts with
  | nil => simp [Tree.AllItems]
  | cons t ts ih => rw [Tree.AllItems, ih, List.forall_mem_cons]

theorem Tree.allPairs_iff {num : Float.Model → Prop} {str key : List Char → Prop} :
    Tree.AllPairs num str key ps ↔ ∀ p ∈ ps, key p.1 ∧ p.2.All num str key := by
  induction ps with
  | nil => simp [Tree.AllPairs]
  | cons p ps ih => rw [Tree.AllPairs, ih, List.forall_mem_cons]

/-- **The text of every document is read to its end.** -/
theorem reads_of_integers : ∀ t : Tree, t.Integers → Reads t := by
  refine Tree.induction (fun _ => reads_null) (fun b _ => reads_bool b) (fun n h => ?_)
    (fun s _ => reads_str s) (fun ts ih h => ?_) fun ps ih h => ?_
  · obtain ⟨z, hz, rfl⟩ := h
    exact reads_number hz
  · exact reads_array fun t ht => ih t ht (Tree.allItems_iff.mp h t ht)
  · exact reads_object fun p hp => ih p hp (Tree.allPairs_iff.mp h p hp).2

/-! ## The text of a table -/

section Stringify

variable {T : NodeTable}

/-- From some fuel on, the text of the node at `h` is that of the document. -/
def Writes (T : NodeTable) (h : Handle) (t : Tree) : Prop :=
  ∃ N, ∀ fuel ≥ N, kryosJsonStringify T fuel h = some t.text

theorem Writes.of_node {h : Handle} {t : Tree} {node : JsonNode} (hget : T.map h = some node)
    (hwrites : ∃ N, ∀ fuel ≥ N, stringifyNodeWithTable T (fuel + 1) node = some t.text) :
    Writes T h t := by
  obtain ⟨N, hN⟩ := hwrites
  refine ⟨N + 1, fun fuel hfuel => ?_⟩
  obtain ⟨fuel, rfl⟩ : ∃ k, fuel = k + 1 := ⟨fuel - 1, by omega⟩
  rw [kryosJsonStringify, NodeTable.get, hget]
  exact hN fuel (by omega)

theorem mapM_items {hs : List Handle} (hd : DenotesItems T.map hs ts)
    (h : ∀ t ∈ ts, ∀ v, Denotes T.map v t → Writes T v t) :
    ∃ N, ∀ fuel ≥ N, hs.mapM (kryosJsonStringify T fuel) = some (Tree.textItems ts) := by
  induction ts generalizing hs with
  | nil =>
    cases hs with
    | nil => exact ⟨0, fun _ _ => rfl⟩
    | cons v hs => exact hd.elim
  | cons t ts ih =>
    cases hs with
    | nil => exact hd.elim
    | cons v hs =>
      rw [List.forall_mem_cons] at h
      obtain ⟨hv, hds⟩ := hd
      obtain ⟨N, hN⟩ := h.1 v hv
      obtain ⟨N', hN'⟩ := ih hds h.2
      refine ⟨max N N', fun fuel hfuel => ?_⟩
      rw [List.mapM_cons, hN fuel (by omega), hN' fuel (by omega)]
      rfl

theorem mapM_pairs {hs : List (List Char × Handle)} (hd : DenotesPairs T.map hs ps)
    (h : ∀ p ∈ ps, ∀ v, Denotes T.map v p.2 → Writes T v p.2) :
    ∃ N, ∀ fuel ≥ N, (hs.mapM fun p => do
      let text ← kryosJsonStringify T fuel p.2
      return quote :: p.1.flatMap escapeKey ++ [quote, ':'] ++ text) = some (Tree.textPairs ps) := by
  induction ps generalizing hs with
  | nil =>
    cases hs with
    | nil => exact ⟨0, fun _ _ => rfl⟩
    | cons v hs => exact hd.elim
  | cons p ps ih =>
    obtain ⟨k, t⟩ := p
    cases hs with
    | nil => exact hd.elim
    | cons q hs =>
      obtain ⟨k', v⟩ := q
      rw [List.forall_mem_cons] at h
      obtain ⟨⟨rfl, hv⟩, hds⟩ := hd
      obtain ⟨N, hN⟩ := h.1 v hv
      obtain ⟨N', hN'⟩ := ih hds h.2
      refine ⟨max N N', fun fuel hfuel => ?_⟩
      rw [List.mapM_cons, hN fuel (by omega), hN' fuel (by omega)]
      rfl

/-- With enough fuel the serializer writes the text of the document. -/
theorem writes_of_denotes : ∀ t h, Denotes T.map h t → Writes T h t := by
  refine Tree.induction (fun h hd => ?_) (fun b h hd => ?_) (fun n h hd => ?_) (fun s h hd => ?_)
    (fun ts ih h hd => ?_) fun ps ih h hd => ?_
  · exact Writes.of_node hd ⟨0, fun _ _ => rfl⟩
  · exact Writes.of_node hd ⟨0, fun _ _ => rfl⟩
  · exact Writes.of_node hd ⟨0, fun _ _ => rfl⟩
  · exact Writes.of_node hd ⟨0, fun _ _ => rfl⟩
  · obtain ⟨items, hget, hds⟩ := hd
    obtain ⟨N, hN⟩ := mapM_items hds ih
    refine Writes.of_node hget ⟨N, fun fuel hfuel => ?_⟩
    show (items.mapM (kryosJsonStringify T fuel) >>= _) = _
    rw [hN fuel hfuel]
    rfl
  · obtain ⟨pairs, hget, hds⟩ := hd
    obtain ⟨N, hN⟩ := mapM_pairs hds ih
    refine Writes.of_node hget ⟨N, fun fuel hfuel => ?_⟩
    show ((pairs.mapM fun p => do
      let text ← kryosJsonStringify T fuel p.2
      return quote :: p.1.flatMap escapeKey ++ [quote, ':'] ++ text) >>= _) = _
    rw [hN fuel hfuel]
    rfl

end Stringify

/-! ## When nothing is lost -/

/-- Reading characters back one by one, a string is unchanged exactly when each of its characters
is. -/
theorem flatMap_eq_self_iff {read : Char → List Char}
    (h : ∀ c, read c = [c] ∨ 2 ≤ (read c).length) (s : List Char) :
    s.flatMap read = s ↔ ∀ c ∈ s, read c = [c] := by
  have hle (s : List Char) : s.length ≤ (s.flatMap read).length := by
    induction s with
    | nil => exact le_rfl
    | cons c s ih =>
      rw [List.flatMap_cons, List.length_append, List.length_cons]
      obtain hc | hc := h c
      · rw [hc, List.length_singleton]
        omega
      · omega
  induction s with
  | nil => simp
  | cons c s ih =>
    rw [List.flatMap_cons, List.forall_mem_cons]
    obtain hc | hc := h c
    · rw [hc, List.singleton_append, List.cons_inj_right]
      exact ih.trans (and_iff_right rfl).symm
    · refine iff_of_false (fun heq => ?_) fun hboth => ?_
      · have hlen := congrArg List.length heq
        rw [List.length_append, List.length_cons] at hlen
        have := hle s
        omega
      · rw [hboth.1, List.length_singleton] at hc
        omega

theorem readKey_cases (c : Char) : readKey c = [c] ∨ 2 ≤ (readKey c).length := by
  obtain hlt | hge := Nat.lt_or_ge c.toNat 0x80
  · exact Or.inl (readKey_of_ascii hlt)
  · refine Or.inr ?_
    rw [readKey, List.length_map]
    exact (utf8EncodeChar_of_not_ascii hge).1

theorem readKey_eq_iff (c : Char) : readKey c = [c] ↔ c.toNat < 0x80 := by
  refine ⟨fun h => ?_, readKey_of_ascii⟩
  by_contra hge
  have hlen := (utf8EncodeChar_of_not_ascii (not_lt.mp hge)).1
  rw [← List.length_map byteAsChar, ← readKey, h, List.length_singleton] at hlen
  omega

theorem readValue_cases (c : Char) : readValue c = [c] ∨ 2 ≤ (readValue c).length := by
  rw [readValue]
  split_ifs
  · exact Or.inl rfl
  · exact readKey_cases c

theorem readValue_eq_iff (c : Char) : readValue c = [c] ↔ c.toNat < 0x80 ∨ isControl c = true := by
  rw [readValue]
  split_ifs with hc
  · exact iff_of_true rfl (Or.inr hc)
  · rw [readKey_eq_iff, or_iff_left hc]

theorem readBackItems_eq_self_iff (ts : List Tree) :
    Tree.readBackItems ts = ts ↔ ∀ t ∈ ts, t.readBack = t := by
  induction ts with
  | nil => simp [Tree.readBackItems]
  | cons t ts ih => rw [Tree.readBackItems, List.cons.injEq, ih, List.forall_mem_cons]

theorem readBackPairs_eq_self_iff (ps : List (List Char × Tree)) :
    Tree.readBackPairs ps = ps ↔ ∀ p ∈ ps, p.1.flatMap readKey = p.1 ∧ p.2.readBack = p.2 := by
  induction ps with
  | nil => simp [Tree.readBackPairs]
  | cons p ps ih =>
    rw [Tree.readBackPairs, List.cons.injEq, ih, List.forall_mem_cons, Prod.mk.injEq]

/-- What is read back is the document itself exactly when the document is plain. -/
theorem readBack_eq_self_iff : ∀ t : Tree, t.readBack = t ↔ t.Plain := by
  refine Tree.induction (iff_of_true rfl trivial) (fun _ => iff_of_true rfl trivial)
    (fun _ => iff_of_true rfl trivial) (fun s => ?_) (fun ts ih => ?_) fun ps ih => ?_
  · rw [Tree.readBack, Tree.str.injEq, flatMap_eq_self_iff readValue_cases]
    exact forall₂_congr fun c _ => readValue_eq_iff c
  · rw [Tree.readBack, Tree.array.injEq, readBackItems_eq_self_iff]
    exact (forall₂_congr ih).trans Tree.allItems_iff.symm
  · rw [Tree.readBack, Tree.object.injEq, readBackPairs_eq_self_iff]
    refine (forall₂_congr fun p hp => and_congr ?_ (ih p hp)).trans Tree.allPairs_iff.symm
    rw [flatMap_eq_self_iff readKey_cases]
    exact forall₂_congr fun c _ => readKey_eq_iff c

section Unique

variable {map : Handle → Option JsonNode}

theorem denotesItems_unique (h : ∀ t ∈ ts, ∀ t' v, Denotes map v t → Denotes map v t' → t = t')
    {hs : List Handle} {ts' : List Tree} (hd : DenotesItems map hs ts)
    (hd' : DenotesItems map hs ts') : ts = ts' := by
  induction ts generalizing hs ts' with
  | nil =>
    cases hs with
    | nil =>
      cases ts' with
      | nil => rfl
      | cons t' ts' => exact hd'.elim
    | cons v hs => exact hd.elim
  | cons t ts ih =>
    rw [List.forall_mem_cons] at h
    cases hs with
    | nil => exact hd.elim
    | cons v hs =>
      cases ts' with
      | nil => exact hd'.elim
      | cons t' ts' => rw [h.1 t' v hd.1 hd'.1, ih h.2 hd.2 hd'.2]

theorem denotesPairs_unique (h : ∀ p ∈ ps, ∀ t' v, Denotes map v p.2 → Denotes map v t' → p.2 = t')
    {hs : List (List Char × Handle)} {ps' : List (List Char × Tree)} (hd : DenotesPairs map hs ps)
    (hd' : DenotesPairs map hs ps') : ps = ps' := by
  induction ps generalizing hs ps' with
  | nil =>
    cases hs with
    | nil =>
      cases ps' with
      | nil => rfl
      | cons p' ps' => exact hd'.elim
    | cons v hs => exact hd.elim
  | cons p ps ih =>
    obtain ⟨k, t⟩ := p
    rw [List.forall_mem_cons] at h
    cases hs with
    | nil => exact hd.elim
    | cons q hs =>
      cases ps' with
      | nil => exact hd'.elim
      | cons p' ps' =>
        obtain ⟨k', t'⟩ := p'
        obtain ⟨⟨rfl, hv⟩, hds⟩ := hd
        obtain ⟨⟨rfl, hv'⟩, hds'⟩ := hd'
        obtain rfl : t = t' := h.1 t' _ hv hv'
        rw [ih h.2 hds hds']

/-- The nodes below a handle form one document. -/
theorem denotes_unique : ∀ t t' h, Denotes map h t → Denotes map h t' → t = t' := by
  refine Tree.induction (fun t' h hd hd' => ?_) (fun b t' h hd hd' => ?_) (fun n t' h hd hd' => ?_)
    (fun s t' h hd hd' => ?_) (fun ts ih t' h hd hd' => ?_) fun ps ih t' h hd hd' => ?_
  · cases t' <;> simp_all [Denotes]
  · cases t' <;> simp_all [Denotes]
  · cases t' <;> simp_all [Denotes]
  · cases t' <;> simp_all [Denotes]
  · obtain ⟨items, hget, hds⟩ := hd
    cases t' with
    | array ts' =>
      obtain ⟨items', hget', hds'⟩ := hd'
      obtain rfl : items = items' := by simpa [hget] using hget'
      rw [denotesItems_unique ih hds hds']
    | _ => simp_all [Denotes]
  · obtain ⟨pairs, hget, hds⟩ := hd
    cases t' with
    | object ps' =>
      obtain ⟨pairs', hget', hds'⟩ := hd'
      obtain rfl : pairs = pairs' := by simpa [hget] using hget'
      rw [denotesPairs_unique ih hds hds']
    | _ => simp_all [Denotes]

end Unique

/-- Serializing the document at `h` and parsing the text gives a node that denotes the document
again; from some fuel on, neither function runs out of it. -/
def RoundTrips (T : NodeTable) (h : Handle) (t : Tree) : Prop :=
  ∃ N, ∀ fuel ≥ N, ∃ text h' T', kryosJsonStringify T fuel h = some text ∧
    kryosJsonParse fuel text T = some (h', T') ∧ Denotes T'.map h' t

/-- **Round trips.** Exactly the plain documents are read back unchanged. -/
theorem roundTrips_iff {T : NodeTable} {h : Handle} {t : Tree} (hd : Denotes T.map h t)
    (hn : t.Integers) : RoundTrips T h t ↔ t.Plain := by
  obtain ⟨N, hwrites⟩ := writes_of_denotes t h hd
  obtain ⟨N', h', T', hparse, hgrown⟩ := (reads_of_integers t hn).parse [] (by simp [Stops]) T
  have hread (fuel : ℕ) (hfuel : N' ≤ fuel) : kryosJsonParse fuel t.text T = some (h', T') := by
    have := hparse fuel hfuel
    rw [List.append_nil] at this
    rw [kryosJsonParse, this]
  rw [← readBack_eq_self_iff]
  constructor
  · rintro ⟨M, hM⟩
    obtain ⟨text, h'', T'', htext, hpar, hden⟩ := hM (max M (max N N')) (le_max_left ..)
    obtain rfl : t.text = text := by
      rw [hwrites _ (by omega)] at htext
      exact Option.some.inj htext
    obtain ⟨rfl, rfl⟩ : h' = h'' ∧ T' = T'' := by
      rw [hread _ (by omega)] at hpar
      simpa using hpar
    exact denotes_unique _ _ _ hgrown.holds hden
  · intro hback
    have hden := hgrown.holds
    rw [hback] at hden
    exact ⟨max N N', fun fuel hfuel => ⟨t.text, h', T', hwrites fuel (by omega),
      hread fuel (by omega), hden⟩⟩

/-- An array of a string and a number, where the string is a control character beyond ASCII. -/
def controlTable : NodeTable where
  map
    | 1000 => some (.str [Char.ofNat 0x85])
    | 1001 => some (.number (Float.Model.ofInt 7))
    | 1002 => some (.array [1000, 1001])
    | _ => none
  nextId := 1003

def controlTree : Tree := .array [.str [Char.ofNat 0x85], .number (Float.Model.ofInt 7)]

theorem roundTrips_iff_control : RoundTrips controlTable 1002 controlTree ↔ controlTree.Plain :=
  roundTrips_iff ⟨[1000, 1001], rfl, rfl, rfl, trivial⟩
    ⟨trivial, ⟨7, by decide, rfl⟩, trivial⟩

/-- The string of one letter, U+00E9, is read back as two. -/
theorem accent_is_lost :
    ¬ ∀ (T : NodeTable) (h : Handle) (t : Tree), Denotes T.map h t → t.Integers →
      RoundTrips T h t := by
  intro h
  let T : NodeTable := ⟨fun _ => some (.str [Char.ofNat 0xe9]), 1000⟩
  obtain ⟨N, hN⟩ := h T 0 (.str [Char.ofNat 0xe9]) rfl trivial
  obtain ⟨text, h', T', htext, hparse, hden⟩ := hN (N + 1) (Nat.le_succ N)
  have hwritten : kryosJsonStringify T (N + 1) 0 = some [quote, Char.ofNat 0xe9, quote] := rfl
  obtain rfl : [quote, Char.ofNat 0xe9, quote] = text := Option.some.inj (hwritten.symm.trans htext)
  have hread : kryosJsonParse (N + 1) [quote, Char.ofNat 0xe9, quote] T =
      some (1000, (T.insert (.str [Char.ofNat 0xc3, Char.ofNat 0xa9])).2) := rfl
  obtain ⟨rfl, rfl⟩ := Prod.mk.inj (Option.some.inj (hread.symm.trans hparse))
  have hnode : some (JsonNode.str [Char.ofNat 0xc3, Char.ofNat 0xa9]) =
      some (.str [Char.ofNat 0xe9]) := hden
  simp at hnode

end Kryos.Stdlib.Json
