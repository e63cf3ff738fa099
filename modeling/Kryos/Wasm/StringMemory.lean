import Mathlib.Algebra.Order.Ring.Int
import Mathlib.Data.List.Pairwise
import Mathlib.Logic.Relation

/-!
# String memory

The compiler lays the string literals of a module out from offset 16 on and declares a memory of one
page. The host puts the strings it makes behind a pointer that starts at 16 KiB and only grows, and
asks for more pages where it has to. Nothing but these two conventions keeps literals and host
strings apart: the data segment has to end where the host begins.

A step of the host is one `writeStr`. It may fail, when the memory cannot grow or the offset is not
one, and a failure ends the run. The pointer is kept as a 32-bit integer, so it turns negative behind
2 GiB, after which every step fails, and would come back to 0 behind 4 GiB.

## Main results

* `interned_layout` — how literals lie in the data segment
* `separate_of_writes` — a step of the host keeps everything apart
* `string_memory_iff` — which literals are safe for every run
-/

namespace Kryos

namespace Wasm

/-! ## The compiler -/

/-- The bytes of a string literal. -/
abbrev Literal := List UInt8

structure StringTable where
  stringTable : List (Literal × ℕ × ℕ)
  stringCursor : ℕ
  stringBytes : List UInt8

namespace StringTable

def initial : StringTable := ⟨[], 16, List.replicate 16 0⟩

/-- One byte of padding. -/
def pad (t : StringTable) : StringTable :=
  { t with stringBytes := t.stringBytes ++ [0], stringCursor := (t.stringCursor + 1) % 2 ^ 32 }

/-- The alignment loop; it turns at most three times. -/
def align : ℕ → StringTable → StringTable
  | 0, t => t
  | n + 1, t => if t.stringCursor % 4 ≠ 0 then align n t.pad else t

/-- `intern_string`; offsets and lengths are `u32`. -/
def internString (s : Literal) (t : StringTable) : (ℕ × ℕ) × StringTable :=
  match t.stringTable.lookup s with
  | some pair => (pair, t)
  | none =>
    let offset := t.stringCursor
    let len := s.length % 2 ^ 32
    let placed := align 3 { t with
      stringBytes := t.stringBytes ++ s
      stringCursor := (t.stringCursor + len) % 2 ^ 32 }
    ((offset, len), { placed with stringTable := (s, offset, len) :: t.stringTable })

/-- The table behind a module with these literals. -/
def interned (literals : List Literal) : StringTable :=
  literals.foldl (fun t s => (internString s t).2) initial

end StringTable

/-! ## The host -/

/-- What the engine allows a memory to grow to. -/
structure Engine where
  maxPages : ℕ
  one_le : 1 ≤ maxPages
  le : maxPages ≤ 2 ^ 16

structure HostState where
  memory : ℕ → UInt8
  pages : ℕ
  bumpPtr : ℤ
  /-- the strings made so far: where they are, and how long -/
  strings : List (ℕ × ℕ)

/-- The size of a page. -/
def pageBytes : ℕ := 2 ^ 16

def HostState.byteLength (h : HostState) : ℕ := h.pages * pageBytes

/-- The one page of the memory section, with the data segment in it. -/
def instantiate (t : StringTable) : Option HostState :=
  if t.stringBytes.length ≤ pageBytes then
    some { memory := fun i => t.stringBytes.getD i 0, pages := 1, bumpPtr := 2 ^ 14, strings := [] }
  else none

/-- `x | 0` -/
def toInt32 (x : ℤ) : ℤ := (x + 2 ^ 31) % 2 ^ 32 - 2 ^ 31

/-- Pages until the memory is large enough. `n` is what it may still grow by. -/
def growLoop (needed : ℤ) : ℕ → ℕ → Option ℕ
  | n, pages =>
    if needed ≤ pages * pageBytes then some pages
    else
      match n with
      | 0 => none
      | n + 1 => growLoop needed n (pages + 1)

def bumpAlloc (engine : Engine) (bytes : ℕ) (h : HostState) : Option (ℤ × HostState) := do
  let pages ← growLoop (h.bumpPtr + bytes) (engine.maxPages - h.pages) h.pages
  let next := toInt32 (h.bumpPtr + bytes + 7)
  -- `& ~7` clears the three lowest bits
  return (h.bumpPtr, { h with pages, bumpPtr := next - next % 8 })

/-- `writeStr`; an offset that does not lie in the memory is a `RangeError`. -/
def writeStr (engine : Engine) (enc : List UInt8) (h : HostState) : Option HostState := do
  let (off, h) ← bumpAlloc engine enc.length h
  if off < 0 ∨ (h.byteLength : ℤ) < off + enc.length then none
  else
    return { h with
      memory := fun i =>
        if off.toNat ≤ i ∧ i < off.toNat + enc.length then enc.getD (i - off.toNat) 0
        else h.memory i
      strings := (off.toNat, enc.length) :: h.strings }

/-- A step of the host that does not reach the last bytes below 4 GiB. -/
def Writes (engine : Engine) (h h' : HostState) : Prop :=
  ∃ enc : List UInt8, h.bumpPtr + enc.length + 7 < 2 ^ 32 ∧ writeStr engine enc h = some h'

/-! ## Layout -/

/-- Two regions, as offset and length, have no byte in common. -/
def Apart (r r' : ℕ × ℕ) : Prop :=
  ∀ b, r.1 ≤ b → b < r.1 + r.2 → r'.1 ≤ b → r'.1 + r'.2 ≤ b

theorem Apart.symm {r r' : ℕ × ℕ} (h : Apart r r') : Apart r' r := by
  intro b h₁ h₂ h₃
  by_contra hlt
  exact absurd (h b h₃ (Nat.lt_of_not_le hlt) h₁) (Nat.not_le.mpr h₂)

theorem apart_of_le {r r' : ℕ × ℕ} (h : r.1 + r.2 ≤ r'.1) : Apart r r' :=
  fun _ _ h₂ h₃ => absurd (h₂.trans_le (h.trans h₃)) (lt_irrefl _)

variable {t : StringTable}

namespace StringTable

/-- The literals, one behind the other: each begins at a multiple of 4, and every multiple of 4 from
16 on lies in one. -/
structure Laid (t : StringTable) : Prop where
  cursor : t.stringCursor = t.stringBytes.length
  aligned : t.stringBytes.length % 4 = 0
  length : ∀ e ∈ t.stringTable, e.2.2 = e.1.length
  within : ∀ e ∈ t.stringTable, e.2.1 + e.2.2 ≤ t.stringBytes.length
  kept : ∀ e ∈ t.stringTable, ∀ i < e.1.length, t.stringBytes[e.2.1 + i]? = e.1[i]?
  apart : t.stringTable.Pairwise fun e e' => Apart e.2 e'.2
  covered : ∀ b, 16 ≤ b → b < t.stringBytes.length → b % 4 = 0 →
    ∃ e ∈ t.stringTable, e.2.1 ≤ b ∧ b < e.2.1 + e.2.2

theorem laid_initial : Laid initial where
  cursor := rfl
  aligned := rfl
  length := nofun
  within := nofun
  kept := nofun
  apart := .nil
  covered := fun _ h₁ h₂ _ => absurd h₂ (Nat.not_lt.mpr h₁)

/-- What the alignment loop does. -/
theorem align_eq (n : ℕ) (t : StringTable) {k : ℕ} (hk : k ≤ n) (hk4 : k < 4)
    (haligned : (t.stringCursor + k) % 4 = 0) :
    (align n t).stringBytes = t.stringBytes ++ List.replicate k 0 ∧
      (t.stringCursor + k < 2 ^ 32 → (align n t).stringCursor = t.stringCursor + k) := by
  induction n generalizing t k with
  | zero =>
    obtain rfl : k = 0 := Nat.le_zero.mp hk
    exact ⟨(List.append_nil _).symm, fun _ => rfl⟩
  | succ n ih =>
    rw [align]
    cases k with
    | zero =>
      rw [if_neg (by simpa using haligned)]
      exact ⟨(List.append_nil _).symm, fun _ => rfl⟩
    | succ k =>
      have hpad : t.pad.stringCursor = (t.stringCursor + 1) % 2 ^ 32 := rfl
      obtain ⟨hbytes, hcursor⟩ := ih t.pad (Nat.le_of_succ_le_succ hk) (by omega) (by omega)
      rw [if_pos (by omega), hbytes]
      refine ⟨?_, fun hlt => ?_⟩
      · rw [pad, List.append_assoc]
        rfl
      · rw [hcursor (by omega), hpad]
        omega

/-- The table after a literal that is new. -/
theorem internString_new {s : Literal} (h : t.stringTable.lookup s = none) :
    ∃ k, (t.stringCursor + s.length + k) % 4 = 0 ∧ k < 4 ∧
      (internString s t).2.stringBytes = t.stringBytes ++ s ++ List.replicate k 0 ∧
      (t.stringCursor + s.length + k < 2 ^ 32 →
        (internString s t).2.stringCursor = t.stringCursor + s.length + k ∧
        (internString s t).2.stringTable = (s, t.stringCursor, s.length) :: t.stringTable) := by
  rw [internString, h]
  obtain ⟨k, hk4, haligned⟩ : ∃ k < 4, ((t.stringCursor + s.length % 2 ^ 32) % 2 ^ 32 + k) % 4 = 0 :=
    ⟨(4 - (t.stringCursor + s.length % 2 ^ 32) % 2 ^ 32 % 4) % 4, by omega, by omega⟩
  obtain ⟨hbytes, hcursor⟩ := align_eq 3 { t with
    stringBytes := t.stringBytes ++ s
    stringCursor := (t.stringCursor + s.length % 2 ^ 32) % 2 ^ 32 } (by omega) hk4 haligned
  refine ⟨k, by omega, hk4, hbytes, fun hlt => ⟨?_, ?_⟩⟩
  · refine (hcursor ?_).trans ?_
    · show (t.stringCursor + s.length % 2 ^ 32) % 2 ^ 32 + k < 2 ^ 32
      omega
    · show (t.stringCursor + s.length % 2 ^ 32) % 2 ^ 32 + k = _
      omega
  · show (s, t.stringCursor, s.length % 2 ^ 32) :: _ = _
    rw [Nat.mod_eq_of_lt (by omega)]

theorem length_le_internString (s : Literal) (t : StringTable) :
    t.stringBytes.length ≤ (internString s t).2.stringBytes.length := by
  cases h : t.stringTable.lookup s with
  | some pair => rw [internString, h]
  | none =>
    obtain ⟨k, -, -, hbytes, -⟩ := internString_new h
    rw [hbytes, List.length_append, List.length_append]
    omega

theorem laid_internString {s : Literal} (h : Laid t)
    (hlen : (internString s t).2.stringBytes.length < 2 ^ 32) : Laid (internString s t).2 := by
  cases hlookup : t.stringTable.lookup s with
  | some pair =>
    rw [internString, hlookup]
    exact h
  | none =>
    obtain ⟨k, haligned, hk, hbytes, hnew⟩ := internString_new hlookup
    have hlength : (internString s t).2.stringBytes.length =
        t.stringBytes.length + s.length + k := by
      rw [hbytes, List.length_append, List.length_append, List.length_replicate]
    rw [hlength] at hlen
    rw [h.cursor] at haligned hnew
    obtain ⟨hcursor, htable⟩ := hnew hlen
    refine ⟨hcursor.trans hlength.symm, by omega, ?_, ?_, ?_, ?_, ?_⟩
    · rw [htable, List.forall_mem_cons]
      exact ⟨rfl, h.length⟩
    · rw [htable, List.forall_mem_cons, hlength]
      refine ⟨Nat.le_add_right _ k, fun e he => ?_⟩
      have hwithin := h.within e he
      omega
    · rw [htable, List.forall_mem_cons, hbytes, List.append_assoc]
      refine ⟨fun i hi => ?_, fun e he i hi => ?_⟩
      · rw [List.getElem?_append_right (Nat.le_add_right _ i), Nat.add_sub_cancel_left,
          List.getElem?_append_left hi]
      · have hwithin := h.within e he
        rw [h.length e he] at hwithin
        rw [List.getElem?_append_left (by omega)]
        exact h.kept e he i hi
    · rw [htable, List.pairwise_cons]
      refine ⟨fun e he => ?_, h.apart⟩
      exact (apart_of_le (h.within e he)).symm
    · intro b hb hlt hb4
      rw [hlength] at hlt
      rw [htable]
      by_cases hold : b < t.stringBytes.length
      · obtain ⟨e, he, hin⟩ := h.covered b hb hold hb4
        exact ⟨e, List.mem_cons_of_mem _ he, hin⟩
      · -- multiples of 4 behind the old end and not in the padding
        have haligned₀ := h.aligned
        have hin : b < t.stringBytes.length + s.length := by omega
        exact ⟨_, List.mem_cons_self, Nat.le_of_not_lt hold, hin⟩

theorem length_le_foldl (literals : List Literal) (t : StringTable) :
    t.stringBytes.length ≤
      (literals.foldl (fun t s => (internString s t).2) t).stringBytes.length := by
  induction literals generalizing t with
  | nil => exact Nat.le_refl _
  | cons s literals ih => exact Nat.le_trans (length_le_internString s t) (ih _)

/-- **How literals lie** in the data segment, as long as offsets fit. -/
theorem interned_layout {literals : List Literal}
    (hlen : (interned literals).stringBytes.length < 2 ^ 32) : Laid (interned literals) := by
  rw [interned] at hlen ⊢
  generalize hinit : initial = t at hlen ⊢
  have hlaid : Laid t := hinit ▸ laid_initial
  clear hinit
  induction literals generalizing t with
  | nil => exact hlaid
  | cons s literals ih =>
    have hle := length_le_foldl literals (internString s t).2
    exact ih _ hlen (laid_internString hlaid (Nat.lt_of_le_of_lt hle hlen))

end StringTable

/-! ## Steps of the host -/

/-- Everything has its own place in the memory, and the literals are what they were. -/
structure Separate (t : StringTable) (h : HostState) : Prop where
  kept : ∀ e ∈ t.stringTable, e.2.2 = e.1.length ∧
    ∀ i < e.1.length, e.1[i]? = some (h.memory (e.2.1 + i))
  literals : t.stringTable.Pairwise fun e e' => Apart e.2 e'.2
  strings : h.strings.Pairwise Apart
  apart : ∀ e ∈ t.stringTable, ∀ r ∈ h.strings, Apart e.2 r
  literals_inside : ∀ e ∈ t.stringTable, e.2.1 + e.2.2 ≤ h.byteLength
  strings_inside : ∀ r ∈ h.strings, r.1 + r.2 ≤ h.byteLength

/-- The pointer is behind everything, or has turned negative. -/
def PointerBehind (h : HostState) : Prop :=
  h.bumpPtr < 0 ∨ 2 ^ 14 ≤ h.bumpPtr ∧ ∀ r ∈ h.strings, (r.1 + r.2 : ℕ) ≤ h.bumpPtr

theorem growLoop_of_le {needed : ℤ} {pages : ℕ} (h : needed ≤ pages * pageBytes) (n : ℕ) :
    growLoop needed n pages = some pages := by
  cases n with
  | zero => rw [growLoop, if_pos h]
  | succ n => rw [growLoop, if_pos h]

theorem le_of_growLoop {needed : ℤ} {n pages p : ℕ} (h : growLoop needed n pages = some p) :
    pages ≤ p := by
  induction n generalizing pages with
  | zero =>
    rw [growLoop] at h
    split at h
    · cases h
      exact Nat.le_refl _
    · cases h
  | succ n ih =>
    rw [growLoop] at h
    split at h
    · cases h
      exact Nat.le_refl _
    · exact Nat.le_trans (Nat.le_succ pages) (ih h)

/-- What a successful `writeStr` does. -/
structure Written (enc : List UInt8) (h h' : HostState) : Prop where
  nonneg : 0 ≤ h.bumpPtr
  pages : h.pages ≤ h'.pages
  inside : h.bumpPtr + enc.length ≤ h'.byteLength
  frame : ∀ i, ¬ (h.bumpPtr.toNat ≤ i ∧ i < h.bumpPtr.toNat + enc.length) →
    h'.memory i = h.memory i
  strings : h'.strings = (h.bumpPtr.toNat, enc.length) :: h.strings
  bumpPtr : h'.bumpPtr = toInt32 (h.bumpPtr + enc.length + 7) -
    toInt32 (h.bumpPtr + enc.length + 7) % 8

variable {engine : Engine} {h : HostState}

theorem written_of_writeStr {enc : List UInt8} {h' : HostState}
    (hw : writeStr engine enc h = some h') : Written enc h h' := by
  rw [writeStr, bumpAlloc] at hw
  cases hgrow : growLoop (h.bumpPtr + enc.length) (engine.maxPages - h.pages) h.pages with
  | none => simp [hgrow] at hw
  | some pages =>
    simp only [hgrow, Option.bind_eq_bind, Option.bind_some, Option.pure_def] at hw
    split at hw
    · cases hw
    · rename_i hrange
      cases hw
      obtain ⟨hnonneg, hinside⟩ := not_or.mp hrange
      exact ⟨Int.not_lt.mp hnonneg, le_of_growLoop hgrow, Int.not_lt.mp hinside,
        fun i hi => if_neg hi, rfl, rfl⟩

/-- The pointer after a string, unless it comes near 4 GiB. -/
theorem toInt32_cases {x : ℤ} (hnonneg : 0 ≤ x) (hlt : x < 2 ^ 32) :
    toInt32 x - toInt32 x % 8 < 0 ∨ x - 7 ≤ toInt32 x - toInt32 x % 8 := by
  rw [toInt32]
  omega

theorem pointerBehind_of_writes {h' : HostState} (hw : Writes engine h h') (hp : PointerBehind h) :
    PointerBehind h' := by
  obtain ⟨enc, hlow, hwrite⟩ := hw
  have hspec := written_of_writeStr hwrite
  have hnonneg := hspec.nonneg
  obtain hneg | ⟨hstart, hbehind⟩ := hp
  · omega
  · rw [PointerBehind, hspec.bumpPtr, hspec.strings, List.forall_mem_cons]
    obtain hneg | hle := @toInt32_cases (h.bumpPtr + enc.length + 7) (by omega) hlow
    · exact .inl hneg
    · refine .inr ⟨by omega, ?_, fun r hr => ?_⟩
      · show ((h.bumpPtr.toNat + enc.length : ℕ) : ℤ) ≤ _
        omega
      · have := hbehind r hr
        omega

theorem apart_pointer (hp : PointerBehind h) (hnonneg : 0 ≤ h.bumpPtr) (n : ℕ) :
    ∀ r ∈ h.strings, Apart (h.bumpPtr.toNat, n) r := by
  intro r hr
  obtain hneg | ⟨-, hbehind⟩ := hp
  · omega
  · have hle := hbehind r hr
    refine (apart_of_le ?_).symm
    show r.1 + r.2 ≤ h.bumpPtr.toNat
    omega

/-- **A step of the host keeps everything apart**, if the data segment ends where the host begins. -/
theorem separate_of_writes {h' : HostState} (ht : ∀ e ∈ t.stringTable, e.2.1 + e.2.2 ≤ 2 ^ 14)
    (hw : Writes engine h h') (hp : PointerBehind h) (hs : Separate t h) : Separate t h' := by
  obtain ⟨enc, -, hwrite⟩ := hw
  have hspec := written_of_writeStr hwrite
  have hnonneg := hspec.nonneg
  have hstart : 2 ^ 14 ≤ h.bumpPtr.toNat := by
    obtain hneg | ⟨hstart, -⟩ := hp
    · omega
    · omega
  have hgrown : h.byteLength ≤ h'.byteLength := Nat.mul_le_mul_right pageBytes hspec.pages
  refine ⟨fun e he => ⟨(hs.kept e he).1, fun i hi => ?_⟩, hs.literals, ?_, ?_, ?_, ?_⟩
  · have hend := ht e he
    rw [(hs.kept e he).1] at hend
    rw [(hs.kept e he).2 i hi, hspec.frame _ (by omega)]
  · rw [hspec.strings, List.pairwise_cons]
    exact ⟨apart_pointer hp hnonneg enc.length, hs.strings⟩
  · intro e he
    rw [hspec.strings, List.forall_mem_cons]
    exact ⟨apart_of_le (Nat.le_trans (ht e he) hstart), hs.apart e he⟩
  · exact fun e he => Nat.le_trans (hs.literals_inside e he) hgrown
  · rw [hspec.strings, List.forall_mem_cons]
    have hinside := hspec.inside
    refine ⟨?_, fun r hr => Nat.le_trans (hs.strings_inside r hr) hgrown⟩
    show h.bumpPtr.toNat + enc.length ≤ h'.byteLength
    omega

/-! ## Runs -/

/-- The start of a run. -/
def HostState.start (t : StringTable) : HostState :=
  { memory := fun i => t.stringBytes.getD i 0, pages := 1, bumpPtr := 2 ^ 14, strings := [] }

theorem separate_start (hlaid : t.Laid) (hlen : t.stringBytes.length ≤ pageBytes) :
    Separate t (HostState.start t) where
  kept e he := by
    refine ⟨hlaid.length e he, fun i hi => ?_⟩
    have hkept := hlaid.kept e he i hi
    rw [List.getElem?_eq_getElem hi] at hkept ⊢
    show _ = some (t.stringBytes.getD (e.2.1 + i) 0)
    rw [List.getD_eq_getElem?_getD, hkept]
    rfl
  literals := hlaid.apart
  strings := .nil
  apart := fun _ _ => nofun
  literals_inside e he := by
    refine Nat.le_trans (hlaid.within e he) (Nat.le_trans hlen ?_)
    exact Nat.le_of_eq (Nat.one_mul pageBytes).symm
  strings_inside := nofun

theorem separate_of_run (hlaid : t.Laid) (hlen : t.stringBytes.length ≤ 2 ^ 14)
    (hrun : Relation.ReflTransGen (Writes engine) (HostState.start t) h) :
    Separate t h ∧ PointerBehind h := by
  have ht : ∀ e ∈ t.stringTable, e.2.1 + e.2.2 ≤ 2 ^ 14 := fun e he =>
    Nat.le_trans (hlaid.within e he) hlen
  induction hrun with
  | refl =>
    exact ⟨separate_start hlaid (Nat.le_trans hlen (by decide)), .inr ⟨Int.le_refl _, nofun⟩⟩
  | tail _ hw ih => exact ⟨separate_of_writes ht hw ih.2 ih.1, pointerBehind_of_writes hw ih.2⟩

/-- The first string that the host makes. -/
theorem writes_start (engine : Engine) (t : StringTable) (b : UInt8) :
    ∃ h, Writes engine (HostState.start t) h ∧ h.strings = [(2 ^ 14, 1)] := by
  have hfits : (HostState.start t).bumpPtr + (1 : ℕ) ≤ (HostState.start t).pages * pageBytes := by
    show (2 ^ 14 : ℤ) + (1 : ℕ) ≤ (1 : ℕ) * pageBytes
    decide
  have hgrow := growLoop_of_le hfits (engine.maxPages - (HostState.start t).pages)
  have hwrite : (writeStr engine [b] (HostState.start t)).isSome := by
    rw [writeStr, bumpAlloc, List.length_singleton, hgrow]
    simp only [Option.bind_eq_bind, Option.bind_some, Option.pure_def]
    rw [if_neg]
    · rfl
    · show ¬ ((2 ^ 14 : ℤ) < 0 ∨ ((1 * pageBytes : ℕ) : ℤ) < 2 ^ 14 + (1 : ℕ))
      decide
  obtain ⟨h, hh⟩ := Option.isSome_iff_exists.mp hwrite
  have hlow : (2 ^ 14 : ℤ) + (1 : ℕ) + 7 < 2 ^ 32 := by decide
  exact ⟨h, ⟨[b], hlow, hh⟩, (written_of_writeStr hh).strings⟩

/-- A literal behind 16 KiB meets the first string of the host. -/
theorem not_separate_of_long (engine : Engine) (hlaid : t.Laid)
    (hlen : 2 ^ 14 < t.stringBytes.length) :
    ∃ h, Writes engine (HostState.start t) h ∧ ¬ Separate t h := by
  obtain ⟨h, hw, hstrings⟩ := writes_start engine t 0
  obtain ⟨e, he, hle, hlt⟩ := hlaid.covered (2 ^ 14) (by decide) hlen (by decide)
  refine ⟨h, hw, fun hs => ?_⟩
  have hapart := hs.apart e he (2 ^ 14, 1) (by rw [hstrings]; exact List.mem_cons_self)
  exact absurd (hapart (2 ^ 14) hle hlt (Nat.le_refl _)) (by decide)

/-- **Which literals are safe** in every run. -/
theorem string_memory_iff (engine : Engine) (literals : List Literal) :
    (∃ start, instantiate (StringTable.interned literals) = some start ∧
      ∀ h, Relation.ReflTransGen (Writes engine) start h →
        Separate (StringTable.interned literals) h) ↔
      (StringTable.interned literals).stringBytes.length ≤ 2 ^ 14 := by
  constructor
  · rintro ⟨start, hstart, hruns⟩
    rw [instantiate] at hstart
    split at hstart
    · rename_i hfits
      cases hstart
      by_contra hlong
      have hlaid := StringTable.interned_layout (Nat.lt_of_le_of_lt hfits (by decide))
      obtain ⟨h, hw, hnot⟩ := not_separate_of_long engine hlaid (Nat.lt_of_not_le hlong)
      exact hnot (hruns h (.single hw))
    · cases hstart
  · intro hlen
    have hlaid := StringTable.interned_layout (Nat.lt_of_le_of_lt hlen (by decide))
    refine ⟨HostState.start _, if_pos (Nat.le_trans hlen (by decide)), fun h hrun => ?_⟩
    exact (separate_of_run hlaid hlen hrun).1

/-- One literal of 16 KiB: it lies from offset 16 on, so its end is where the host begins. -/
theorem long_literal_is_overwritten :
    ∃ start h, instantiate (StringTable.interned [List.replicate (2 ^ 14) 97]) = some start ∧
      Writes ⟨2 ^ 16, by decide, by decide⟩ start h ∧
      ¬ Separate (StringTable.interned [List.replicate (2 ^ 14) 97]) h := by
  have hlookup : StringTable.initial.stringTable.lookup (List.replicate (2 ^ 14) 97) = none := rfl
  obtain ⟨k, hmod, hk, hbytes, -⟩ := StringTable.internString_new hlookup
  have hlength : (StringTable.interned [List.replicate (2 ^ 14) 97]).stringBytes.length =
      16 + 2 ^ 14 + k := by
    show (StringTable.internString _ StringTable.initial).2.stringBytes.length = _
    rw [hbytes, List.length_append, List.length_append, List.length_replicate,
      List.length_replicate]
    rfl
  have hlaid := @StringTable.interned_layout [List.replicate (2 ^ 14) 97] (by omega)
  obtain ⟨h, hw, hnot⟩ := not_separate_of_long ⟨2 ^ 16, by decide, by decide⟩ hlaid (by omega)
  refine ⟨_, h, if_pos ?_, hw, hnot⟩
  rw [hlength, pageBytes]
  omega

end Wasm

end Kryos
