import Mathlib
import Kryos.Lib.Text

/-!
# Semantic versions

Versions `major.minor.patch[-pre]`, their order, and the requirements a dependency can put on one.
A pre-release sorts below the release it belongs to; two pre-releases compare as strings. A
requirement is one operator and one version, and it looks at pre-releases only through the order.
-/

namespace Kryos.Package

structure Version where
  major : Nat
  minor : Nat
  patch : Nat
  pre : Option String
deriving DecidableEq, Repr

namespace Version

/-- `Version::new` -/
def new (major minor patch : Nat) : Version := ⟨major, minor, patch, none⟩

def toString (v : Version) : String :=
  let core := s!"{v.major}.{v.minor}.{v.patch}"
  match v.pre with
  | none => core
  | some pre => core ++ "-" ++ pre

/-- No pre-release is greater than any pre-release. -/
def cmpPre : Option String → Option String → Ordering
  | none, none => .eq
  | none, some _ => .gt
  | some _, none => .lt
  | some a, some b => compare a b

def cmp (v w : Version) : Ordering :=
  (compare v.major w.major).then <|
    (compare v.minor w.minor).then <|
      (compare v.patch w.patch).then <| cmpPre v.pre w.pre

/-! ## Reading a version -/

/-- `str::split` at a character; the pieces between, the empty ones included. -/
def splitAt (sep : Char) : List Char → List (List Char)
  | [] => [[]]
  | c :: cs =>
    if c = sep then [] :: splitAt sep cs
    else
      match splitAt sep cs with
      | [] => [[c]]
      | piece :: pieces => (c :: piece) :: pieces

def digitsToNat : List Char → Nat → Option Nat
  | [], n => some n
  | c :: cs, n => if c.isDigit then digitsToNat cs (10 * n + (c.toNat - '0'.toNat)) else none

/-- `str::parse::<u64>`: an optional plus sign, then at least one digit, in range. -/
def parseU64 (s : List Char) : Option Nat :=
  let digits := match s with
    | '+' :: cs => cs
    | cs => cs
  if digits = [] then none
  else (digitsToNat digits 0).filter (· < 2 ^ 64)

def readPart (what : String) (part : List Char) : Except String Nat :=
  match parseU64 part with
  | some n => .ok n
  | none => .error ("invalid " ++ what ++ " version: '" ++ String.ofList part ++ "'")

/-- `Version::from_str` -/
def fromStr (s : String) : Except String Version := do
  let versionPart := s.toList.takeWhile (· ≠ '-')
  let pre := if '-' ∈ s.toList then some (s.toList.drop (versionPart.length + 1)) else none
  match splitAt '.' versionPart with
  | [a, b, c] =>
    let major ← readPart "major" a
    let minor ← readPart "minor" b
    let patch ← readPart "patch" c
    if pre = some [] then .error "pre-release identifier cannot be empty"
    else .ok ⟨major, minor, patch, pre.map String.ofList⟩
  | _ => .error ("invalid version: expected MAJOR.MINOR.PATCH, got '" ++ s ++ "'")

example : (fromStr "1.20.3-rc.1").toOption = some ⟨1, 20, 3, some "rc.1"⟩ := by decide
example : (fromStr "1.0").toOption = none := by decide

end Version

/-! ## Requirements -/

inductive Op where
  | caret
  | tilde
  | exact
  | greaterEq
  | greater
  | lessEq
  | less
  | wildcard
deriving DecidableEq, Repr

structure VersionReq where
  op : Op
  version : Version
deriving DecidableEq, Repr

namespace VersionReq

/-- `^1.2.3` means `>=1.2.3, <2.0.0`; `^0.2.3` means `>=0.2.3, <0.3.0`; `^0.0.3` means
`>=0.0.3, <0.0.4`. -/
def matchesCaret (r : VersionReq) (v : Version) : Bool :=
  if v.cmp r.version = .lt then false
  else if r.version.major ≠ 0 then v.major == r.version.major
  else if r.version.minor ≠ 0 then v.major == 0 && v.minor == r.version.minor
  else v.major == 0 && v.minor == 0 && v.patch == r.version.patch

/-- `~1.2.3` means `>=1.2.3, <1.3.0`. -/
def matchesTilde (r : VersionReq) (v : Version) : Bool :=
  if v.cmp r.version = .lt then false
  else v.major == r.version.major && v.minor == r.version.minor

def matchesExact (r : VersionReq) (v : Version) : Bool := v == r.version

def «matches» (r : VersionReq) (v : Version) : Bool :=
  match r.op with
  | .caret => r.matchesCaret v
  | .tilde => r.matchesTilde v
  | .exact => r.matchesExact v
  | .greaterEq => v.cmp r.version != .lt
  | .greater => v.cmp r.version == .gt
  | .lessEq => v.cmp r.version != .gt
  | .less => v.cmp r.version == .lt
  | .wildcard => true

def opStr : Op → String
  | .caret => "^"
  | .tilde => "~"
  | .exact => "="
  | .greaterEq => ">="
  | .greater => ">"
  | .lessEq => "<="
  | .less => "<"
  | .wildcard => "*"

def toString (r : VersionReq) : String :=
  if r.op = .wildcard then "*" else opStr r.op ++ r.version.toString

/-- The operator in front of a version. A version alone is treated as caret. -/
def stripOp : List Char → Op × List Char
  | '>' :: '=' :: r => (.greaterEq, r)
  | '<' :: '=' :: r => (.lessEq, r)
  | '>' :: r => (.greater, r)
  | '<' :: r => (.less, r)
  | '^' :: r => (.caret, r)
  | '~' :: r => (.tilde, r)
  | '=' :: r => (.exact, r)
  | s => (.caret, s)

/-- `VersionReq::from_str` -/
def fromStr (s : String) : Except String VersionReq :=
  let s := Text.trim s.toList
  if s = [] then .error "empty version requirement"
  else if s = ['*'] then .ok ⟨.wildcard, Version.new 0 0 0⟩
  else do
    let (op, rest) := stripOp s
    let version ← Version.fromStr (String.ofList (Text.trim rest))
    return ⟨op, version⟩

end VersionReq

end Kryos.Package
