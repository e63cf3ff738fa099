import Kryos.Runtime.Map

/-!
# Programs over hash maps

Maps are reached through handles, 0 being the null handle. A handle is a stable header that has
the address of its table; `resize` replaces the table behind a handle and frees the old one, every
other operation writes in place, and `kryos_map_snapshot` allocates a header and a table of its
own. A program is a sequence of calls on the handles it has received: a call on any other handle
has no result.

The specification runs the same calls over finite maps, one for each handle.

## Main results

* `Map.Memory.load_write`, `Map.Memory.load_replace`, `Map.Memory.load_alloc` — an operation
  changes what is behind one handle only, as the tables are separate
* `Map.hash_map_refines` — every sequence of calls answers as the same calls on finite maps do
-/

namespace Kryos.Runtime.Map

open LinearProbing

/-- The calls of a program. -/
inductive Call (K : Type*)
  | new
  | insert (map : ℕ) (key : K) (value : Word)
  | delete (map : ℕ) (key : K)
  | get (map : ℕ) (key : K)
  | has (map : ℕ) (key : K)
  | len (map : ℕ)
  | keys (map : ℕ)
  | snapshot (map : ℕ)
  deriving DecidableEq

/-- What a call returns; the keys are an array in the runtime and a set in the specification. -/
inductive Answer (L : Type*)
  | unit
  | handle (map : ℕ)
  | value (v : Word)
  | count (n : ℕ)
  | keys (ks : L)
  deriving DecidableEq

/-- Run calls one after the other and collect their answers. -/
def run {S C A : Type*} (exec : S → C → Option (S × A)) : S → List C → Option (S × List A)
  | s, [] => some (s, [])
  | s, c :: cs =>
    match exec s c with
    | none => none
    | some (s', a) => (run exec s' cs).map fun (s'', as) => (s'', a :: as)

/-- Machines that are related call by call are related over every sequence of calls. -/
theorem run_rel {S T C A B : Type*} {exec : S → C → Option (S × A)} {exec' : T → C → Option (T × B)}
    {R : S → T → Prop} {Q : A → B → Prop}
    (hstep : ∀ s t c, R s t →
      Option.Rel (fun x y => R x.1 y.1 ∧ Q x.2 y.2) (exec s c) (exec' t c))
    (calls : List C) : ∀ {s : S} {t : T}, R s t →
      Option.Rel (fun x y => R x.1 y.1 ∧ List.Forall₂ Q x.2 y.2)
        (run exec s calls) (run exec' t calls) := by
  induction calls with
  | nil => exact fun h => .some ⟨h, .nil⟩
  | cons c calls ih =>
    intro s t h
    have hc := hstep s t c h
    unfold run
    generalize exec s c = x at hc ⊢
    generalize exec' t c = y at hc ⊢
    rcases hc with hc | _
    · obtain ⟨hrel, hagree⟩ := hc
      have hrest := ih hrel
      dsimp only
      generalize run exec _ calls = x' at hrest ⊢
      generalize run exec' _ calls = y' at hrest ⊢
      rcases hrest with hrest | _
      · exact .some ⟨hrest.1, .cons hagree hrest.2⟩
      · exact .none
    · exact .none

/-! ## The runtime -/

/-- `MapHeader` as it lies in memory: `entries` is the address of the table. -/
structure Header where
  len : ℕ
  capacity : ℕ
  entries : ℕ

/-- The headers and the tables allocated so far; a table that was freed is `none`. -/
structure Memory (K : Type*) where
  headers : List Header
  tables : List (Option (Slots K Word))

namespace Memory

variable {K : Type*}

def empty : Memory K :=
  ⟨[], []⟩

/-- The map behind a handle. -/
def load (mem : Memory K) (map : ℕ) : Option (MapHeader K) :=
  mem.headers[map]?.bind fun h =>
    mem.tables[h.entries]?.join.map fun table => ⟨h.len, h.capacity, table⟩

/-- A new header with a new table. -/
def alloc (mem : Memory K) (m : MapHeader K) : Memory K where
  headers := mem.headers ++ [⟨m.len, m.capacity, mem.tables.length⟩]
  tables := mem.tables ++ [some m.entries]

/-- Write a header and its table in place. -/
def write (mem : Memory K) (map : ℕ) (m : MapHeader K) : Memory K :=
  match mem.headers[map]? with
  | none => mem
  | some h =>
    { headers := mem.headers.set map ⟨m.len, m.capacity, h.entries⟩
      tables := mem.tables.set h.entries (some m.entries) }

/-- Write a header with a table at a new address and free the old table. -/
def replace (mem : Memory K) (map : ℕ) (m : MapHeader K) : Memory K :=
  match mem.headers[map]? with
  | none => mem
  | some h =>
    { headers := mem.headers.set map ⟨m.len, m.capacity, mem.tables.length⟩
      tables := mem.tables.set h.entries none ++ [some m.entries] }

end Memory

section Runtime

variable {K : Type*} [DecidableEq K] (hash : K → Word)

/-- A call, on handle `i + 1` for the header at `i`. Each function tests for the null handle first
and answers it as an empty map. -/
def exec (mem : Memory K) : Call K → Option (Memory K × Answer (List K))
  | .new => some (mem.alloc new, .handle (mem.headers.length + 1))
  | .insert 0 _ _ => some (mem, .unit)
  | .insert (i + 1) key value =>
    (mem.load i).bind fun m => (insert hash m key value).map fun m' =>
      -- the capacity changes when the insertion resized the table first
      (if m'.capacity = m.capacity then mem.write i m' else mem.replace i m', .unit)
  | .delete 0 _ => some (mem, .handle 0)
  | .delete (i + 1) key =>
    (mem.load i).map fun m => (mem.write i (delete hash m key), .handle (i + 1))
  | .get 0 _ => some (mem, .value 0)
  | .get (i + 1) key => (mem.load i).map fun m => (mem, .value (get hash m key))
  | .has 0 _ => some (mem, .value 0)
  | .has (i + 1) key => (mem.load i).map fun m => (mem, .value (if has hash m key then 1 else 0))
  | .len 0 => some (mem, .count 0)
  | .len (i + 1) => (mem.load i).map fun m => (mem, .count m.len)
  | .keys 0 => some (mem, .keys [])
  | .keys (i + 1) => (mem.load i).map fun m => (mem, .keys (keys m))
  | .snapshot 0 => some (mem.alloc new, .handle (mem.headers.length + 1))
  | .snapshot (i + 1) =>
    (mem.load i).map fun m => (mem.alloc (snapshot m), .handle (mem.headers.length + 1))

end Runtime

/-- The functions on `i64` keys. -/
def execInt : Memory Word → Call Word → Option (Memory Word × Answer (List Word)) :=
  exec id

/-- The functions on string keys. -/
def execStr : Memory (List UInt8) → Call (List UInt8) →
    Option (Memory (List UInt8) × Answer (List (List UInt8))) :=
  exec kryosStringHash

/-! ## The specification -/

section Spec

variable {K : Type*} [DecidableEq K]

/-- A finite map from keys to words. -/
abbrev FinMap (K : Type*) := Finmap fun _ : K => Word

/-- A call on finite maps. A snapshot is the finite map its source is at that time. -/
def specExec (maps : List (FinMap K)) : Call K → Option (List (FinMap K) × Answer (Finset K))
  | .new => some (maps ++ [∅], .handle (maps.length + 1))
  | .insert 0 _ _ => some (maps, .unit)
  | .insert (i + 1) key value => maps[i]?.map fun f => (maps.set i (f.insert key value), .unit)
  | .delete 0 _ => some (maps, .handle 0)
  | .delete (i + 1) key => maps[i]?.map fun f => (maps.set i (f.erase key), .handle (i + 1))
  | .get 0 _ => some (maps, .value 0)
  | .get (i + 1) key => maps[i]?.map fun f => (maps, .value ((f.lookup key).getD 0))
  | .has 0 _ => some (maps, .value 0)
  | .has (i + 1) key => maps[i]?.map fun f => (maps, .value (if key ∈ f then 1 else 0))
  | .len 0 => some (maps, .count 0)
  | .len (i + 1) => maps[i]?.map fun f => (maps, .count f.keys.card)
  | .keys 0 => some (maps, .keys ∅)
  | .keys (i + 1) => maps[i]?.map fun f => (maps, .keys f.keys)
  | .snapshot 0 => some (maps ++ [∅], .handle (maps.length + 1))
  | .snapshot (i + 1) => maps[i]?.map fun f => (maps ++ [f], .handle (maps.length + 1))

/-- An answer of the runtime agrees with one of the specification: the array lists each key of the
set exactly once, anything else is the same. -/
def Answer.Agrees : Answer (List K) → Answer (Finset K) → Prop
  | .unit, .unit => True
  | .handle i, .handle j => i = j
  | .value v, .value w => v = w
  | .count n, .count m => n = m
  | .keys l, .keys s => l.Nodup ∧ l.toFinset = s
  | _, _ => False

end Spec

/-! ## Memory -/

namespace Memory

variable {K : Type*} {mem : Memory K} {i j : ℕ} {m m' : MapHeader K}

/-- Every header has a table, and no two have the same. -/
structure Separate (mem : Memory K) : Prop where
  bound : ∀ {i : ℕ} {h : Header}, mem.headers[i]? = some h → h.entries < mem.tables.length
  inj : ∀ {i j : ℕ} {h h' : Header}, mem.headers[i]? = some h → mem.headers[j]? = some h' →
    h.entries = h'.entries → i = j

theorem separate_empty : (empty : Memory K).Separate :=
  ⟨fun h => by simp [empty] at h, fun h => by simp [empty] at h⟩

theorem load_eq_some_iff : mem.load i = some m ↔
    ∃ a, mem.headers[i]? = some ⟨m.len, m.capacity, a⟩ ∧ mem.tables[a]? = some (some m.entries) := by
  unfold load
  constructor
  · intro h
    obtain ⟨⟨l, c, a⟩, hh, ht⟩ := Option.bind_eq_some_iff.mp h
    obtain ⟨table, htable, rfl⟩ := Option.map_eq_some_iff.mp ht
    exact ⟨a, hh, Option.join_eq_some_iff.mp htable⟩
  · rintro ⟨a, hh, ht⟩
    simp [hh, ht]

/-- What is behind a handle depends on its header and its table. -/
theorem load_congr {mem' : Memory K} (hh : mem'.headers[j]? = mem.headers[j]?)
    (ht : ∀ h, mem.headers[j]? = some h → mem'.tables[h.entries]? = mem.tables[h.entries]?) :
    mem'.load j = mem.load j := by
  unfold load
  rw [hh]
  rcases hj : mem.headers[j]? with _ | h
  · rfl
  · simp only [Option.bind_some, ht h hj]

/-- The headers after one of them was set. -/
theorem getElem?_set_cases {l : List Header} {x h : Header} (hj : (l.set i x)[j]? = some h) :
    (j = i ∧ h = x) ∨ (j ≠ i ∧ l[j]? = some h) := by
  rcases eq_or_ne j i with rfl | hne
  · rw [List.getElem?_set_self' ] at hj
    obtain ⟨-, -, rfl⟩ := Option.map_eq_some_iff.mp hj
    exact .inl ⟨rfl, rfl⟩
  · rw [List.getElem?_set_ne hne.symm] at hj
    exact .inr ⟨hne, hj⟩

/-- **Writing in place** changes what is behind the handle and behind no other. -/
theorem load_write (hsep : mem.Separate) (hi : mem.load i = some m) (m' : MapHeader K) :
    (mem.write i m').Separate ∧ (mem.write i m').load i = some m' ∧
      ∀ j ≠ i, (mem.write i m').load j = mem.load j := by
  obtain ⟨a, hh, ht⟩ := load_eq_some_iff.mp hi
  have hlt := (List.getElem?_eq_some_iff.mp hh).1
  have ha := hsep.bound hh
  have hmem : mem.write i m' = ⟨mem.headers.set i ⟨m'.len, m'.capacity, a⟩,
      mem.tables.set a (some m'.entries)⟩ := by
    rw [write, hh]
  rw [hmem]
  -- the write keeps every address
  have hsame : ∀ {j : ℕ} {h : Header}, (mem.headers.set i ⟨m'.len, m'.capacity, a⟩)[j]? = some h →
      ∃ h₀ : Header, mem.headers[j]? = some h₀ ∧ h₀.entries = h.entries := by
    intro j h hj
    rcases getElem?_set_cases hj with ⟨rfl, rfl⟩ | ⟨-, hj⟩
    · exact ⟨_, hh, rfl⟩
    · exact ⟨h, hj, rfl⟩
  refine ⟨⟨fun hj => ?_, fun hj hk heq => ?_⟩, ?_, fun j hj => ?_⟩
  · obtain ⟨h₀, hj', e⟩ := hsame hj
    rw [List.length_set, ← e]
    exact hsep.bound hj'
  · obtain ⟨h₁, hj', e₁⟩ := hsame hj
    obtain ⟨h₂, hk', e₂⟩ := hsame hk
    exact hsep.inj hj' hk' (by rw [e₁, e₂, heq])
  · exact load_eq_some_iff.mpr ⟨a, List.getElem?_set_self hlt, List.getElem?_set_self ha⟩
  · refine load_congr (List.getElem?_set_ne hj.symm) fun h hjh => List.getElem?_set_ne ?_
    exact fun he => hj (hsep.inj hh hjh he).symm

/-- **Replacing the table** changes what is behind the handle and behind no other. -/
theorem load_replace (hsep : mem.Separate) (hi : mem.load i = some m) (m' : MapHeader K) :
    (mem.replace i m').Separate ∧ (mem.replace i m').load i = some m' ∧
      ∀ j ≠ i, (mem.replace i m').load j = mem.load j := by
  obtain ⟨a, hh, ht⟩ := load_eq_some_iff.mp hi
  have hlt := (List.getElem?_eq_some_iff.mp hh).1
  have ha := hsep.bound hh
  have hmem : mem.replace i m' = ⟨mem.headers.set i ⟨m'.len, m'.capacity, mem.tables.length⟩,
      mem.tables.set a none ++ [some m'.entries]⟩ := by
    rw [replace, hh]
  rw [hmem]
  refine ⟨⟨fun hj => ?_, fun {j k h₁ h₂} hj hk heq => ?_⟩, ?_, fun j hj => ?_⟩
  · rw [List.length_append, List.length_set, List.length_singleton]
    rcases getElem?_set_cases hj with ⟨-, rfl⟩ | ⟨-, hj⟩
    · exact Nat.lt_succ_self _
    · exact Nat.lt_succ_of_lt (hsep.bound hj)
  · -- the new address is beyond all others
    rcases getElem?_set_cases hj with ⟨rfl, rfl⟩ | ⟨-, hj'⟩ <;>
      rcases getElem?_set_cases hk with ⟨rfl, rfl⟩ | ⟨-, hk'⟩
    · rfl
    · exact absurd heq (hsep.bound hk').ne'
    · exact absurd heq (hsep.bound hj').ne
    · exact hsep.inj hj' hk' heq
  · refine load_eq_some_iff.mpr ⟨mem.tables.length, List.getElem?_set_self hlt, ?_⟩
    rw [List.getElem?_append_right (by simp)]
    simp
  · refine load_congr (List.getElem?_set_ne hj.symm) fun h hjh => ?_
    rw [List.getElem?_append_left (by rw [List.length_set]; exact hsep.bound hjh)]
    exact List.getElem?_set_ne fun he => hj (hsep.inj hh hjh he).symm

/-- **Allocating** changes nothing behind the handles there are. -/
theorem load_alloc (hsep : mem.Separate) (m : MapHeader K) :
    (mem.alloc m).Separate ∧ (mem.alloc m).load mem.headers.length = some m ∧
      ∀ j < mem.headers.length, (mem.alloc m).load j = mem.load j := by
  have hcases : ∀ {j : ℕ} {h : Header}, (mem.alloc m).headers[j]? = some h →
      (j = mem.headers.length ∧ h.entries = mem.tables.length) ∨ mem.headers[j]? = some h := by
    intro j h hj
    rcases lt_or_ge j mem.headers.length with hlt | hge
    · exact .inr (by rwa [alloc, List.getElem?_append_left hlt] at hj)
    · rw [alloc, List.getElem?_append_right hge, List.getElem?_singleton] at hj
      split_ifs at hj with h0
      obtain rfl := Option.some.inj hj
      exact .inl ⟨by omega, rfl⟩
  refine ⟨⟨fun hj => ?_, fun {j k h₁ h₂} hj hk heq => ?_⟩, ?_, fun j hj => ?_⟩
  · rw [alloc, List.length_append, List.length_singleton]
    rcases hcases hj with ⟨-, e⟩ | hj'
    · exact e ▸ Nat.lt_succ_self _
    · exact Nat.lt_succ_of_lt (hsep.bound hj')
  · rcases hcases hj with ⟨rfl, e₁⟩ | hj' <;> rcases hcases hk with ⟨rfl, e₂⟩ | hk'
    · rfl
    · exact absurd (heq.symm.trans e₁) (hsep.bound hk').ne
    · exact absurd (heq.trans e₂) (hsep.bound hj').ne
    · exact hsep.inj hj' hk' heq
  · refine load_eq_some_iff.mpr ⟨mem.tables.length, ?_, ?_⟩ <;> simp [alloc]
  · refine load_congr (List.getElem?_append_left hj) fun h hjh => ?_
    exact List.getElem?_append_left (hsep.bound hjh)

end Memory

/-! ## Refinement -/

section Refinement

variable {K : Type*} [DecidableEq K] {hash : K → Word} {mem mem' : Memory K}
  {maps : List (FinMap K)} {i : ℕ} {f g : FinMap K} {m m' : MapHeader K}

/-- Behind every handle is a table that satisfies the invariant and represents the finite map of
the handle. -/
structure Refines (hash : K → Word) (mem : Memory K) (maps : List (FinMap K)) : Prop where
  length_eq : mem.headers.length = maps.length
  separate : mem.Separate
  tables : ∀ {i : ℕ} {f : FinMap K}, maps[i]? = some f →
    ∃ m, mem.load i = some m ∧ Inv hash m ∧ Represents m f

theorem refines_empty (hash : K → Word) : Refines hash Memory.empty [] :=
  ⟨rfl, Memory.separate_empty, fun h => by simp at h⟩

section

variable (h : Refines hash mem maps)

include h

/-- Either a handle is known to both sides or to none. -/
theorem Refines.cases (i : ℕ) :
    (mem.load i = none ∧ maps[i]? = none) ∨
      ∃ m f, mem.load i = some m ∧ maps[i]? = some f ∧ Inv hash m ∧ Represents m f := by
  rcases hi : maps[i]? with _ | f
  · refine .inl ⟨?_, rfl⟩
    have hnone : mem.headers[i]? = none := by
      rw [List.getElem?_eq_none_iff, h.length_eq, ← List.getElem?_eq_none_iff]
      exact hi
    rw [Memory.load, hnone]
    rfl
  · obtain ⟨m, hm, hinv, hrep⟩ := h.tables hi
    exact .inr ⟨m, f, hm, rfl, hinv, hrep⟩

/-- One handle is changed on both sides. -/
theorem Refines.set (hlen : mem'.headers.length = mem.headers.length) (hsep : mem'.Separate)
    (hload : mem'.load i = some m') (hother : ∀ j ≠ i, mem'.load j = mem.load j)
    (hinv : Inv hash m') (hrep : Represents m' g) : Refines hash mem' (maps.set i g) := by
  refine ⟨by rw [hlen, h.length_eq, List.length_set], hsep, fun {j f} hj => ?_⟩
  rcases eq_or_ne j i with rfl | hne
  · rw [List.getElem?_set_self'] at hj
    obtain ⟨-, -, rfl⟩ := Option.map_eq_some_iff.mp hj
    exact ⟨m', hload, hinv, hrep⟩
  · rw [List.getElem?_set_ne hne.symm] at hj
    rw [hother j hne]
    exact h.tables hj

theorem Refines.write (hi : mem.load i = some m) (hinv : Inv hash m') (hrep : Represents m' g) :
    Refines hash (mem.write i m') (maps.set i g) := by
  obtain ⟨hsep, hload, hother⟩ := Memory.load_write h.separate hi m'
  refine h.set ?_ hsep hload hother hinv hrep
  unfold Memory.write
  split <;> simp

theorem Refines.replace (hi : mem.load i = some m) (hinv : Inv hash m') (hrep : Represents m' g) :
    Refines hash (mem.replace i m') (maps.set i g) := by
  obtain ⟨hsep, hload, hother⟩ := Memory.load_replace h.separate hi m'
  refine h.set ?_ hsep hload hother hinv hrep
  unfold Memory.replace
  split <;> simp

theorem Refines.alloc (hinv : Inv hash m) (hrep : Represents m f) :
    Refines hash (mem.alloc m) (maps ++ [f]) := by
  obtain ⟨hsep, hload, hother⟩ := Memory.load_alloc h.separate m
  refine ⟨by simp [Memory.alloc, h.length_eq], hsep, fun {j g} hj => ?_⟩
  rcases lt_or_ge j maps.length with hlt | hge
  · rw [List.getElem?_append_left hlt] at hj
    rw [hother j (by rw [h.length_eq]; exact hlt)]
    exact h.tables hj
  · rw [List.getElem?_append_right hge, List.getElem?_singleton] at hj
    split_ifs at hj with h0
    obtain rfl := Option.some.inj hj
    obtain rfl : j = mem.headers.length := by rw [h.length_eq]; omega
    exact ⟨m, hload, hinv, hrep⟩

end

/-- Results of a call on both sides: the memory refines the maps and the answers agree. -/
abbrev Related (hash : K → Word) (x : Memory K × Answer (List K))
    (y : List (FinMap K) × Answer (Finset K)) : Prop :=
  Refines hash x.1 y.1 ∧ x.2.Agrees y.2

/-- A call that only reads. -/
theorem Refines.read (h : Refines hash mem maps) (i : ℕ) (a : MapHeader K → Answer (List K))
    (b : FinMap K → Answer (Finset K))
    (hab : ∀ m f, Inv hash m → Represents m f → (a m).Agrees (b f)) :
    Option.Rel (Related hash) ((mem.load i).map fun m => (mem, a m))
      (maps[i]?.map fun f => (maps, b f)) := by
  rcases h.cases i with ⟨hl, hi⟩ | ⟨m, f, hl, hi, hinv, hrep⟩
  · rw [hl, hi]
    exact .none
  · rw [hl, hi]
    exact .some ⟨h, hab m f hinv hrep⟩

/-- **Every call** keeps the memory a refinement of the finite maps and answers as they do. -/
theorem Refines.exec (h : Refines hash mem maps) (c : Call K) :
    Option.Rel (Related hash) (exec hash mem c) (specExec maps c) := by
  have hnew : Related hash (mem.alloc new, .handle (mem.headers.length + 1))
      (maps ++ [∅], .handle (maps.length + 1)) :=
    ⟨h.alloc (inv_new hash) represents_new, congrArg (· + 1) h.length_eq⟩
  rcases c with _ | ⟨_ | i, k, v⟩ | ⟨_ | i, k⟩ | ⟨_ | i, k⟩ | ⟨_ | i, k⟩ | ⟨_ | i⟩ | ⟨_ | i⟩ | ⟨_ | i⟩
  · exact .some hnew
  · exact .some ⟨h, trivial⟩
  · rcases h.cases i with ⟨hl, hi⟩ | ⟨m, f, hl, hi, hinv, hrep⟩
    · simp only [Map.exec, specExec, hl, hi]
      exact .none
    · obtain ⟨t, ht, hinv', hmaps⟩ := hinv.insert k v
      simp only [Map.exec, specExec, hl, hi, ht, Option.bind_some, Option.map_some]
      refine .some ⟨?_, trivial⟩
      dsimp only
      split_ifs
      · exact h.write hl hinv' (hmaps f hrep)
      · exact h.replace hl hinv' (hmaps f hrep)
  · exact .some ⟨h, rfl⟩
  · rcases h.cases i with ⟨hl, hi⟩ | ⟨m, f, hl, hi, hinv, hrep⟩
    · simp only [Map.exec, specExec, hl, hi]
      exact .none
    · obtain ⟨hinv', hmaps⟩ := hinv.delete k
      simp only [Map.exec, specExec, hl, hi, Option.map_some]
      exact .some ⟨h.write hl hinv' (hmaps f hrep), rfl⟩
  · exact .some ⟨h, rfl⟩
  · exact h.read i _ _ fun m f hinv hrep => hinv.get_eq hrep
  · exact .some ⟨h, rfl⟩
  · refine h.read i _ _ fun m f hinv hrep => ?_
    show (if has hash m k then 1 else 0) = if k ∈ f then (1 : Word) else 0
    rw [hinv.has_eq hrep]
    simp only [Finmap.lookup_isSome]
  · exact .some ⟨h, rfl⟩
  · exact h.read i _ _ fun m f hinv hrep => hinv.len hrep
  · exact .some ⟨h, List.nodup_nil, rfl⟩
  · exact h.read i _ _ fun m f hinv hrep => hinv.keys hrep
  · exact .some hnew
  · rcases h.cases i with ⟨hl, hi⟩ | ⟨m, f, hl, hi, hinv, hrep⟩
    · simp only [Map.exec, specExec, hl, hi]
      exact .none
    · obtain ⟨hinv', hstored⟩ := hinv.snapshot
      simp only [Map.exec, specExec, hl, hi, Option.map_some]
      refine .some ⟨h.alloc hinv' fun k v => ?_, congrArg (· + 1) h.length_eq⟩
      rw [hrep, hstored]

/-- **The runtime hash map refines finite maps.** For any keys and any hash, every sequence of
calls from the start has a result exactly when it uses its own handles only, answers as the same
calls on finite maps do, and leaves behind every handle a table that satisfies the invariant and
represents its finite map. -/
theorem hash_map_refines (hash : K → Word) (calls : List (Call K)) :
    Option.Rel (fun x y => Refines hash x.1 y.1 ∧ List.Forall₂ Answer.Agrees x.2 y.2)
      (run (exec hash) Memory.empty calls) (run specExec [] calls) :=
  run_rel (R := Refines hash) (Q := Answer.Agrees) (fun _ _ c h => h.exec c) calls
    (refines_empty hash)

/-- A snapshot keeps what its source loses. -/
example : (run execInt Memory.empty
      [.new, .insert 1 5 50, .snapshot 1, .delete 1 5, .get 1 5, .get 2 5, .len 2]).map Prod.snd =
    some [.handle 1, .unit, .handle 2, .handle 1, .value 0, .value 50, .count 1] := by
  decide

example : (run execStr Memory.empty
      [.new, .insert 1 [104, 105] 7, .has 1 [104, 105], .has 1 [], .keys 1]).map Prod.snd =
    some [.handle 1, .unit, .value 1, .value 0, .keys [[104, 105]]] := by
  decide

end Refinement

end Kryos.Runtime.Map
