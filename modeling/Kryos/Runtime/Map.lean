import Kryos.Lib.LinearProbing
import Mathlib.Data.Finmap
import Mathlib.Data.Nat.Bitwise

/-!
# The runtime hash map

A map is a header with a length, a capacity and a table of entries, probed linearly from the hash
of the key; deletion shifts later entries back instead of leaving a tombstone, and an insertion
that would fill more than three quarters of the table doubles it first.

The functions on `i64` keys and those on strings differ in the hash and in the comparison of keys
only, so each is one definition over a type of keys and a hash. A string key is its content: the
map stores a copy of the key, and compares and hashes contents. An entry that is not occupied is
`none`; its stale key and value are never read.

The load factor is compared in floating point by the source; capacities are powers of two, so the
comparison is exact.

## Main results

* `Map.Inv.insert`, `Map.Inv.delete`, `Map.Inv.snapshot` — what each operation does to the table
  invariant and to the map the table represents
* `Map.Inv.get_eq`, `Map.Inv.has_eq`, `Map.Inv.keys`, `Map.Inv.len` — what the readers answer
-/

namespace Kryos.Runtime.Map

open LinearProbing

/-- An `i64` stored as key or value. -/
abbrev Word := BitVec 64

/-- `INITIAL_CAPACITY`. -/
def initialCapacity : ℕ := 16

/-- `MapHeader` and its entries. -/
structure MapHeader (K : Type*) where
  len : ℕ
  capacity : ℕ
  entries : Slots K Word

/-- `hash_key`: the multiplicative hash, reduced to the table by its mask. -/
def hashKey (key : Word) (capacity : ℕ) : ℕ :=
  (key * 0x9E3779B97F4A7C15#64).toNat &&& (capacity - 1)

/-- `kryos_string_hash`: FNV-1a over the bytes. -/
def kryosStringHash (bytes : List UInt8) : Word :=
  bytes.foldl (fun h b => (h ^^^ b.toBitVec.setWidth 64) * 0x100000001b3#64) 0xcbf29ce484222325#64

/-- One probe step. -/
def nextSlot (capacity idx : ℕ) : ℕ :=
  (idx + 1) &&& (capacity - 1)

section Operations

variable {K : Type*} [DecidableEq K] (hash : K → Word)

/-- The loop every operation starts with: walk from the natural index of the key to the first slot
that is free or has the key. -/
def findSlot (m : MapHeader K) (key : K) : Option ℕ :=
  probe (nextSlot m.capacity) (· = key) m.entries m.capacity (hashKey (hash key) m.capacity)

/-- Rehash one entry into a table. The source walks until it finds a free slot; `none` would be a
walk without end. -/
def rehashEntry (newCap : ℕ) (table : Slots K Word) (kv : K × Word) : Option (Slots K Word) :=
  (probe (nextSlot newCap) (fun _ => false) table newCap (hashKey (hash kv.1) newCap)).map
    fun idx => Function.update table idx (some kv)

/-- The body of the loop of `resize`: rehash the entry of slot `i`, if it is occupied. -/
def rehashSlot (old : Slots K Word) (newCap : ℕ) (table : Slots K Word) (i : ℕ) :
    Option (Slots K Word) :=
  match old i with
  | some kv => rehashEntry hash newCap table kv
  | none => some table

/-- `resize`: double the table and rehash the occupied entries in their order. -/
def resize (m : MapHeader K) : Option (MapHeader K) :=
  ((List.range m.capacity).foldlM (rehashSlot hash m.entries (m.capacity * 2))
    (fun _ => none)).map fun table => { m with entries := table, capacity := m.capacity * 2 }

/-- The insertion proper, into a table with room. -/
def insertEntry (m : MapHeader K) (key : K) (value : Word) : MapHeader K :=
  match findSlot hash m key with
  | some idx =>
    { m with
      entries := Function.update m.entries idx (some (key, value))
      len := if (m.entries idx).isSome then m.len else m.len + 1 }
  | none => m

/-- `kryos_map_insert`, `kryos_map_insert_str`. -/
def insert (m : MapHeader K) (key : K) (value : Word) : Option (MapHeader K) :=
  if m.capacity = 0 then some m
  else if 4 * (m.len + 1) > 3 * m.capacity then
    (resize hash m).map fun m => insertEntry hash m key value
  else some (insertEntry hash m key value)

/-- `kryos_map_get`, `kryos_map_get_str`: 0 when the key is not found. -/
def get (m : MapHeader K) (key : K) : Word :=
  if m.capacity = 0 then 0
  else
    match (findSlot hash m key).bind m.entries with
    | some kv => kv.2
    | none => 0

/-- `kryos_map_has`, `kryos_map_has_str`. -/
def has (m : MapHeader K) (key : K) : Bool :=
  ((findSlot hash m key).bind m.entries).isSome

/-- The loop that shifts entries back into the free slot `idx`, from slot `j` on. -/
def shiftBack (capacity : ℕ) : ℕ → Slots K Word → ℕ → ℕ → Slots K Word
  | 0, entries, _, _ => entries
  | fuel + 1, entries, idx, j =>
    match entries j with
    | none => entries
    | some (k, v) =>
      let natural := hashKey (hash k) capacity
      if (j > idx ∧ (natural ≤ idx ∨ natural > j)) ∨ (j < idx ∧ natural ≤ idx ∧ natural > j) then
        shiftBack capacity fuel
          (Function.update (Function.update entries j none) idx (some (k, v))) j
          (nextSlot capacity j)
      else shiftBack capacity fuel entries idx (nextSlot capacity j)

/-- `kryos_map_delete`, `kryos_map_delete_str`. -/
def delete (m : MapHeader K) (key : K) : MapHeader K :=
  match findSlot hash m key with
  | some idx =>
    if (m.entries idx).isSome then
      { m with
        len := m.len - 1
        entries := shiftBack hash m.capacity m.capacity (Function.update m.entries idx none) idx
          (nextSlot m.capacity idx) }
    else m
  | none => m

end Operations

section Copies

variable {K : Type*}

/-- `kryos_map_new`. -/
def new : MapHeader K where
  len := 0
  capacity := initialCapacity
  entries _ := none

/-- `kryos_map_keys`: the keys in the order of their slots. -/
def keys (m : MapHeader K) : List K :=
  (List.range m.capacity).filterMap fun i => (m.entries i).map Prod.fst

/-- `kryos_map_snapshot`: a table of its own with the same entries at the same slots. -/
def snapshot (m : MapHeader K) : MapHeader K :=
  if m.capacity = 0 then new
  else { m with entries := fun i => if i < m.capacity then m.entries i else none }

end Copies

/-! ## The table invariant -/

section Invariant

variable {K : Type*} (hash : K → Word)

/-- The natural index of a key. -/
def natural (capacity : ℕ) (key : K) : ℕ :=
  hashKey (hash key) capacity

/-- The capacity is a power of two, the length counts the occupied slots, at most three quarters of
the slots are occupied, every entry is reached from its natural index without crossing a free slot
and no key is stored twice. -/
structure Inv (m : MapHeader K) : Prop where
  power : ∃ b, m.capacity = 2 ^ b
  sixteen_le : initialCapacity ≤ m.capacity
  len_eq : m.len = occupied m.capacity m.entries
  load : 4 * m.len ≤ 3 * m.capacity
  placed : WellPlaced (natural hash m.capacity) m.capacity m.entries

variable {hash} {m : MapHeader K}

theorem hashKey_lt {capacity b : ℕ} (h : capacity = 2 ^ b) (key : Word) :
    hashKey key capacity < capacity := by
  subst h
  rw [hashKey, Nat.and_two_pow_sub_one_eq_mod]
  exact Nat.mod_lt _ (Nat.two_pow_pos b)

theorem nextSlot_eq {capacity b : ℕ} (h : capacity = 2 ^ b) :
    ∀ p < capacity, nextSlot capacity p = fwd capacity p 1 := by
  intro p hp
  subst h
  rw [nextSlot, Nat.and_two_pow_sub_one_eq_mod, fwd]
  split_ifs with hlt
  · exact Nat.mod_eq_of_lt hlt
  · have hend : p + 1 = 2 ^ b := by omega
    rw [hend, Nat.mod_self, Nat.sub_self]

theorem Inv.natural_lt (hm : Inv hash m) (k : K) : natural hash m.capacity k < m.capacity :=
  hm.power.elim fun _ h => hashKey_lt h _

theorem Inv.next (hm : Inv hash m) :
    ∀ p < m.capacity, nextSlot m.capacity p = fwd m.capacity p 1 :=
  hm.power.elim fun _ h => nextSlot_eq h

theorem Inv.capacity_ne (hm : Inv hash m) : m.capacity ≠ 0 := by
  have := hm.sixteen_le
  unfold initialCapacity at this
  omega

/-- At least one slot is free. -/
theorem Inv.free (hm : Inv hash m) : ∃ q < m.capacity, m.entries q = none := by
  have := hm.load
  have := hm.len_eq
  have := hm.capacity_ne
  exact exists_free (by omega)

theorem inv_new (hash : K → Word) : Inv hash (new : MapHeader K) where
  power := ⟨4, rfl⟩
  sixteen_le := le_rfl
  len_eq := (occupied_empty _).symm
  load := by simp [new]
  placed := WellPlaced.empty _ _

/-! ## The map a table represents -/

variable [DecidableEq K] {k : K} {v : Word} {p : ℕ}

/-- The table stores exactly the keys and values of the finite map. -/
def Represents (m : MapHeader K) (f : Finmap fun _ : K => Word) : Prop :=
  ∀ k v, f.lookup k = some v ↔ Stored m.capacity m.entries k v

theorem represents_new : Represents (new : MapHeader K) ∅ := by
  intro k v
  simp [new, Stored]

theorem Inv.findSlot_of_mem (hm : Inv hash m) (hp : p < m.capacity)
    (hk : m.entries p = some (k, v)) : findSlot hash m k = some p :=
  hm.placed.probe_of_mem hm.next (hm.natural_lt k) hp hk

theorem Inv.findSlot_of_notMem (hm : Inv hash m) (hk : ∀ v, ¬ Stored m.capacity m.entries k v) :
    ∃ q < m.capacity, findSlot hash m k = some q ∧ m.entries q = none ∧
      ∀ i < gap m.capacity (natural hash m.capacity k) q,
        (m.entries (fwd m.capacity (natural hash m.capacity k) i)).isSome := by
  refine probe_of_free hm.next (hm.natural_lt k) hm.free fun p hp kv hkv => ?_
  rw [decide_eq_false_iff_not]
  rintro rfl
  exact hk kv.2 ⟨p, hp, hkv⟩

variable {f : Finmap fun _ : K => Word}

/-- What a lookup reads. -/
theorem Inv.find_entry (hm : Inv hash m) (hf : Represents m f) :
    (findSlot hash m k).bind m.entries = (f.lookup k).map fun v => (k, v) := by
  rcases hl : f.lookup k with _ | v
  · have hk : ∀ v, ¬ Stored m.capacity m.entries k v := by
      intro v hv
      rw [← hf, hl] at hv
      simp at hv
    obtain ⟨q, -, hq, hnone, -⟩ := hm.findSlot_of_notMem hk
    simp [hq, hnone]
  · obtain ⟨p, hp, hk⟩ := (hf k v).mp hl
    simp [hm.findSlot_of_mem hp hk, hk]

theorem Inv.get_eq (hm : Inv hash m) (hf : Represents m f) :
    get hash m k = (f.lookup k).getD 0 := by
  simp only [get, hm.capacity_ne, if_false, hm.find_entry hf]
  rcases f.lookup k <;> rfl

theorem Inv.has_eq (hm : Inv hash m) (hf : Represents m f) :
    has hash m k = (f.lookup k).isSome := by
  rw [has, hm.find_entry hf, Option.isSome_map]

/-! ## Insertion -/

/-- Inserting into a table with room. -/
theorem Inv.insertEntry (hm : Inv hash m) (hroom : 4 * (m.len + 1) ≤ 3 * m.capacity) :
    Inv hash (insertEntry hash m k v) ∧
      ∀ f, Represents m f → Represents (insertEntry hash m k v) (f.insert k v) := by
  have hlen := hm.len_eq
  have hmaps : ∀ {q : ℕ}, q < m.capacity →
      (∀ p < m.capacity, ∀ w, m.entries p = some (k, w) → p = q) →
      (∀ kv, m.entries q = some kv → kv.1 = k) → findSlot hash m k = some q →
      ∀ f, Represents m f → Represents (Map.insertEntry hash m k v) (f.insert k v) := by
    intro q hq hone hkey hfind f hf k' v'
    simp only [Map.insertEntry, hfind]
    rw [stored_put_iff hq hone hkey, ← hf]
    rcases eq_or_ne k' k with rfl | hne
    · simp [Finmap.lookup_insert, eq_comm]
    · simp [Finmap.lookup_insert_of_ne, hne]
  by_cases hk : ∃ w, Stored m.capacity m.entries k w
  · obtain ⟨w, p, hp, hkw⟩ := hk
    have hfind := hm.findSlot_of_mem hp hkw
    have hocc := occupied_update (e := m.entries) hp (some (k, v))
    refine ⟨?_, hmaps hp (fun q hq w' h => hm.placed.unique q hq p hp k w' w h hkw)
      (fun kv h => by simp [hkw] at h; simp [← h]) hfind⟩
    simp only [Map.insertEntry, hfind, hkw, Option.isSome_some, if_true] at hocc ⊢
    exact ⟨hm.power, hm.sixteen_le, by dsimp only; omega, hm.load, hm.placed.replace hkw⟩
  · have hnew : ∀ w, ¬ Stored m.capacity m.entries k w := fun w hw => hk ⟨w, hw⟩
    obtain ⟨q, hq, hfind, hfree, hpath⟩ := hm.findSlot_of_notMem hnew
    have hocc := occupied_update (e := m.entries) hq (some (k, v))
    refine ⟨?_, hmaps hq (fun p hp w h => absurd ⟨p, hp, h⟩ (hnew w))
      (fun kv h => by simp [hfree] at h) hfind⟩
    simp only [Map.insertEntry, hfind, hfree, Option.isSome_none, Option.isSome_some, if_true,
      Bool.false_eq_true, if_false] at hocc ⊢
    exact ⟨hm.power, hm.sixteen_le, by dsimp only; omega, hroom,
      hm.placed.insert hq hfree hpath hnew⟩

omit [DecidableEq K] in
/-- Rehashing the first `i` slots of a table into one of twice its size. -/
theorem Inv.rehash (hm : Inv hash m) (i : ℕ) (hi : i ≤ m.capacity) :
    ∃ table, (List.range i).foldlM (rehashSlot hash m.entries (m.capacity * 2))
        (fun _ => none) = some table ∧
      WellPlaced (natural hash (m.capacity * 2)) (m.capacity * 2) table ∧
      occupied (m.capacity * 2) table = occupied i m.entries ∧
      ∀ k v, Stored (m.capacity * 2) table k v ↔ Stored i m.entries k v := by
  obtain ⟨b, hb⟩ := hm.power
  have hcap : m.capacity * 2 = 2 ^ (b + 1) := by rw [hb, pow_succ]
  have hpos := hm.capacity_ne
  induction i with
  | zero =>
    refine ⟨fun _ => none, rfl, WellPlaced.empty _ _, by simp [occupied], fun k v => ?_⟩
    simp [Stored]
  | succ i ih =>
    obtain ⟨table, hfold, hplaced, hocc, hstored⟩ := ih (by omega)
    rcases hei : m.entries i with _ | ⟨k, v⟩
    · refine ⟨table, ?_, hplaced, ?_, fun k v => ?_⟩
      · rw [List.range_succ, List.foldlM_append, hfold]
        simp [rehashSlot, hei]
      · rw [hocc, occupied_succ, hei]
        simp
      · rw [hstored, stored_succ_iff, hei]
        simp
    · have hfree : ∃ q < m.capacity * 2, table q = none := by
        have := occupied_le i m.entries
        exact exists_free (by omega)
      -- the key was not met before, since the old table stores it once
      have hnew : ∀ w, ¬ Stored (m.capacity * 2) table k w := by
        intro w hw
        obtain ⟨p, hp, hkw⟩ := (hstored k w).mp hw
        have := hm.placed.unique p (by omega) i (by omega) k w v hkw hei
        omega
      have hhome : natural hash (m.capacity * 2) k < m.capacity * 2 := hashKey_lt hcap _
      have hwalk : ∃ q < m.capacity * 2,
          probe (nextSlot (m.capacity * 2)) (fun _ => false) table (m.capacity * 2)
            (natural hash (m.capacity * 2) k) = some q ∧ table q = none ∧
          ∀ i < gap (m.capacity * 2) (natural hash (m.capacity * 2) k) q,
            (table (fwd (m.capacity * 2) (natural hash (m.capacity * 2) k) i)).isSome :=
        probe_of_free (nextSlot_eq hcap) hhome hfree fun _ _ _ _ => rfl
      obtain ⟨q, hq, hprobe, hnone, hpath⟩ := hwalk
      have hcount := occupied_update (e := table) hq (some (k, v))
      refine ⟨Function.update table q (some (k, v)), ?_, hplaced.insert hq hnone hpath hnew, ?_,
        fun k' v' => ?_⟩
      · rw [List.range_succ, List.foldlM_append, hfold]
        have hentry : rehashEntry hash (m.capacity * 2) table (k, v)
            = some (Function.update table q (some (k, v))) :=
          congrArg (Option.map fun idx => Function.update table idx (some (k, v))) hprobe
        simp [rehashSlot, hei, hentry]
      · simp only [hnone, Option.isSome_none, Option.isSome_some, if_true, Bool.false_eq_true,
          if_false] at hcount
        rw [occupied_succ, hei]
        simp only [Option.isSome_some, if_true]
        omega
      · rw [stored_put_iff hq (fun p hp w h => absurd ⟨p, hp, h⟩ (hnew w))
          (fun kv h => by simp [hnone] at h), stored_succ_iff, hei, hstored]
        rcases eq_or_ne k' k with rfl | hne
        · have hno : ¬ Stored i m.entries k' v' := fun h => hnew v' ((hstored k' v').mpr h)
          simp [hno, eq_comm]
        · simp [hne, hne.symm]

theorem Inv.resize (hm : Inv hash m) :
    ∃ t, resize hash m = some t ∧ Inv hash t ∧ 4 * (t.len + 1) ≤ 3 * t.capacity ∧
      ∀ f, Represents m f → Represents t f := by
  obtain ⟨table, hfold, hplaced, hocc, hstored⟩ := hm.rehash m.capacity le_rfl
  have hlen := hm.len_eq
  have hload := hm.load
  have hsixteen := hm.sixteen_le
  unfold initialCapacity at hsixteen
  refine ⟨{ m with entries := table, capacity := m.capacity * 2 }, ?_, ?_, ?_, fun f hf k v => ?_⟩
  · rw [Map.resize, hfold]
    rfl
  · obtain ⟨b, hb⟩ := hm.power
    refine ⟨⟨b + 1, ?_⟩, ?_, ?_, ?_, hplaced⟩
    · show m.capacity * 2 = 2 ^ (b + 1)
      rw [hb, pow_succ]
    · show 16 ≤ m.capacity * 2
      omega
    · exact hlen.trans hocc.symm
    · show 4 * m.len ≤ 3 * (m.capacity * 2)
      omega
  · show 4 * (m.len + 1) ≤ 3 * (m.capacity * 2)
    omega
  · exact (hf k v).trans (hstored k v).symm

/-- **Insertion** returns, keeps the invariant and inserts into the map represented. -/
theorem Inv.insert (hm : Inv hash m) (k : K) (v : Word) :
    ∃ t, insert hash m k v = some t ∧ Inv hash t ∧
      ∀ f, Represents m f → Represents t (f.insert k v) := by
  unfold Map.insert
  rw [if_neg hm.capacity_ne]
  split_ifs with hfull
  · obtain ⟨t, ht, hinv, hroom, hmaps⟩ := hm.resize
    obtain ⟨hinv', hmaps'⟩ := hinv.insertEntry hroom (k := k) (v := v)
    exact ⟨_, by rw [ht]; rfl, hinv', fun f hf => hmaps' f (hmaps f hf)⟩
  · obtain ⟨hinv, hmaps⟩ := hm.insertEntry (by omega) (k := k) (v := v)
    exact ⟨_, rfl, hinv, hmaps⟩

/-! ## Deletion -/

omit [DecidableEq K] in
/-- The loop of the deletion turns a hole into a well-placed table that stores the same. The free
slot `f` ahead bounds its number of turns. -/
theorem shiftBack_spec {capacity b : ℕ} (hb : capacity = 2 ^ b) {f : ℕ} (hf : f < capacity)
    (fuel : ℕ) : ∀ {e : Slots K Word} {hole r j : ℕ},
    Hole (natural hash capacity) capacity e hole r → j = fwd capacity hole r →
    e f = none → f ≠ hole → gap capacity j f < fuel →
    WellPlaced (natural hash capacity) capacity (shiftBack hash capacity fuel e hole j) ∧
      occupied capacity (shiftBack hash capacity fuel e hole j) = occupied capacity e ∧
      ∀ k v, Stored capacity (shiftBack hash capacity fuel e hole j) k v ↔
        Stored capacity e k v := by
  have hhome : ∀ k : K, natural hash capacity k < capacity := fun k => hashKey_lt hb _
  induction fuel with
  | zero => intro e hole r j _ _ _ _ h; omega
  | succ fuel ih =>
    intro e hole r j hh hj hfree hne hfuel
    have hjn : j < capacity := by rw [hj]; exact fwd_lt hh.hole_lt hh.le
    rcases hej : e j with _ | ⟨k, v⟩
    · simp only [shiftBack, hej]
      exact ⟨hh.close hhome (.inr (hj ▸ hej)), trivial, fun _ _ => trivial⟩
    · have hr : r < capacity := by
        refine lt_of_le_of_ne hh.le fun h => ?_
        have : j = hole := by
          have := hh.hole_lt
          rw [hj, h]
          unfold fwd
          split_ifs <;> omega
        rw [this, hh.empty] at hej
        simp at hej
      have hjf : j ≠ f := by
        rintro rfl
        simp [hfree] at hej
      have hjh : j ≠ hole := by
        rintro rfl
        simp [hh.empty] at hej
      have hnext : nextSlot capacity j = fwd capacity j 1 := nextSlot_eq hb j hjn
      have hstep : gap capacity (nextSlot capacity j) f < fuel := by
        rw [hnext]
        unfold gap fwd at *
        split_ifs at * <;> omega
      have hcut := cut_off_iff hh.hole_lt hjn (hhome k)
      simp only [shiftBack, hej]
      split_ifs with hmove
      · have hmoved := hh.move hr (hj ▸ hej) (hj ▸ hcut.mp hmove)
        rw [← hj] at hmoved
        have hcount := occupied_update (e := Function.update e j none) hh.hole_lt (some (k, v))
        have hcount' := occupied_update (e := e) hjn none
        obtain ⟨hplaced, hocc, hstored⟩ := ih hmoved hnext (by simp [hne, hjf.symm, hfree])
          hjf.symm hstep
        refine ⟨hplaced, ?_, fun k' v' => ?_⟩
        · rw [hocc]
          simp only [hej, hh.empty, Function.update_of_ne hjh.symm, Option.isSome_some,
            Option.isSome_none, if_true, Bool.false_eq_true, if_false] at hcount hcount'
          omega
        · rw [hstored, stored_move_iff hjn hh.hole_lt hh.empty hej]
      · have hskip := hh.skip hr (hj ▸ hej) (hj ▸ fun h => hmove (hcut.mpr h))
        refine ih hskip ?_ hfree hne hstep
        rw [hnext, hj, fwd_one_fwd hh.hole_lt hr]

/-- **Deletion** keeps the invariant and erases from the map represented. -/
theorem Inv.delete (hm : Inv hash m) (k : K) :
    Inv hash (delete hash m k) ∧ ∀ f, Represents m f → Represents (delete hash m k) (f.erase k) := by
  by_cases hk : ∃ w, Stored m.capacity m.entries k w
  · obtain ⟨w, p, hp, hkw⟩ := hk
    obtain ⟨b, hb⟩ := hm.power
    obtain ⟨q, hq, hfree⟩ := hm.free
    have hqp : q ≠ p := by
      rintro rfl
      simp [hkw] at hfree
    have hopen := hm.placed.openHole hp
    obtain ⟨hplaced, hocc, hstored⟩ := shiftBack_spec hb hq m.capacity hopen (hm.next p hp)
      (by simp [hqp, hfree]) hqp (gap_lt (by rw [hm.next p hp]; exact fwd_lt hp (by omega)) hq)
    have hcount := occupied_update (e := m.entries) hp none
    have hlen := hm.len_eq
    have hload := hm.load
    simp only [hkw, Option.isSome_some, Option.isSome_none, if_true, Bool.false_eq_true,
      if_false] at hcount
    simp only [Map.delete, hm.findSlot_of_mem hp hkw, hkw, Option.isSome_some, if_true]
    refine ⟨⟨⟨b, hb⟩, hm.sixteen_le, ?_, ?_, hplaced⟩, fun f hf k' v' => ?_⟩
    · rw [hocc]
      dsimp only
      omega
    · dsimp only
      omega
    · rw [hstored, stored_update_iff hp]
      rcases eq_or_ne k' k with rfl | hne
      · have hno : ¬ ∃ r < m.capacity, r ≠ p ∧ m.entries r = some (k', v') := by
          rintro ⟨r, hr, hrp, h⟩
          exact hrp (hm.placed.unique r hr p hp k' v' w h hkw)
        simp [hno]
      · rw [Finmap.lookup_erase_ne hne, hf k' v']
        refine ⟨fun ⟨r, hr, h⟩ => .inr ⟨r, hr, ?_, h⟩, ?_⟩
        · rintro rfl
          simp [hkw, hne.symm] at h
        · rintro (h | ⟨r, hr, -, h⟩)
          · simp at h
          · exact ⟨r, hr, h⟩
  · have hnew : ∀ w, ¬ Stored m.capacity m.entries k w := fun w hw => hk ⟨w, hw⟩
    obtain ⟨q, hq, hfind, hfree, -⟩ := hm.findSlot_of_notMem hnew
    have hsame : Map.delete hash m k = m := by simp [Map.delete, hfind, hfree]
    rw [hsame]
    refine ⟨hm, fun f hf k' v' => ?_⟩
    rcases eq_or_ne k' k with rfl | hne
    · simp [hnew v']
    · rw [Finmap.lookup_erase_ne hne, hf k' v']

/-! ## Snapshots, keys and length -/

omit [DecidableEq K] in
/-- **A snapshot** keeps the invariant and represents the same map. -/
theorem Inv.snapshot (hm : Inv hash m) :
    Inv hash (snapshot m) ∧ ∀ k v, Stored (snapshot m).capacity (snapshot m).entries k v ↔
      Stored m.capacity m.entries k v := by
  have hsame : ∀ p < m.capacity, (Map.snapshot m).entries p = m.entries p := by
    intro p hp
    simp [Map.snapshot, hm.capacity_ne, hp]
  have hcap : (Map.snapshot m).capacity = m.capacity := by simp [Map.snapshot, hm.capacity_ne]
  have hlen : (Map.snapshot m).len = m.len := by simp [Map.snapshot, hm.capacity_ne]
  have hfwd : ∀ (k : K) (i : ℕ), i < m.capacity →
      fwd m.capacity (natural hash m.capacity k) i < m.capacity :=
    fun k i hi => fwd_lt (hm.natural_lt k) hi.le
  refine ⟨⟨hcap ▸ hm.power, hcap ▸ hm.sixteen_le, ?_, ?_, ?_⟩, fun k v => ?_⟩
  · rw [hlen, hcap, hm.len_eq]
    unfold occupied
    refine congrArg Finset.card (Finset.filter_congr fun p hp => ?_)
    rw [hsame p (Finset.mem_range.mp hp)]
  · rw [hlen, hcap]
    exact hm.load
  · rw [hcap]
    constructor
    · intro p hp k v hk i hi
      rw [hsame p hp] at hk
      rw [hsame _ (hfwd k i (hi.trans (gap_lt (hm.natural_lt k) hp)))]
      exact hm.placed.linked p hp k v hk i hi
    · intro p hp q hq k v w h h'
      rw [hsame p hp] at h
      rw [hsame q hq] at h'
      exact hm.placed.unique p hp q hq k v w h h'
  · rw [hcap]
    constructor
    · rintro ⟨p, hp, h⟩
      exact ⟨p, hp, by rwa [hsame p hp] at h⟩
    · rintro ⟨p, hp, h⟩
      exact ⟨p, hp, by rwa [hsame p hp]⟩

/-- The keys of the first `n` slots. -/
def keysBelow (e : Slots K Word) (n : ℕ) : List K :=
  (List.range n).filterMap fun i => (e i).map Prod.fst

omit [DecidableEq K] in
theorem keysBelow_succ (e : Slots K Word) (n : ℕ) :
    keysBelow e (n + 1) = keysBelow e n ++ ((e n).map Prod.fst).toList := by
  rw [keysBelow, List.range_succ, List.filterMap_append, ← keysBelow]
  rcases hen : e n with _ | kv <;> simp [hen]

omit [DecidableEq K] in
theorem length_keysBelow (e : Slots K Word) (n : ℕ) : (keysBelow e n).length = occupied n e := by
  induction n with
  | zero => simp [keysBelow, occupied]
  | succ n ih =>
    rw [keysBelow_succ, List.length_append, ih, occupied_succ]
    rcases e n with _ | kv <;> simp

omit [DecidableEq K] in
theorem mem_keysBelow_iff {e : Slots K Word} {n : ℕ} :
    k ∈ keysBelow e n ↔ ∃ v, Stored n e k v := by
  simp only [keysBelow, List.mem_filterMap, List.mem_range, Stored, Option.map_eq_some_iff]
  constructor
  · rintro ⟨p, hp, ⟨k', v⟩, hk, rfl⟩
    exact ⟨v, p, hp, hk⟩
  · rintro ⟨v, p, hp, hk⟩
    exact ⟨p, hp, (k, v), hk, rfl⟩

omit [DecidableEq K] in
theorem Inv.nodup_keysBelow (hm : Inv hash m) (n : ℕ) (hn : n ≤ m.capacity) :
    (keysBelow m.entries n).Nodup := by
  induction n with
  | zero => exact List.nodup_nil
  | succ n ih =>
    rw [keysBelow_succ]
    rcases hen : m.entries n with _ | ⟨k, v⟩
    · simpa using ih (by omega)
    · refine (ih (by omega)).append (List.nodup_singleton k) ?_
      intro k' hk' hk
      obtain rfl : k' = k := by simpa using hk
      -- a second slot with this key would lie below `n`
      obtain ⟨w, p, hp, hkw⟩ := mem_keysBelow_iff.mp hk'
      have := hm.placed.unique p (by omega) n (by omega) k' w v hkw hen
      omega

/-- **The keys** are listed once each, and they are those of the map represented. -/
theorem Inv.keys (hm : Inv hash m) {f : Finmap fun _ : K => Word} (hf : Represents m f) :
    (keys m).Nodup ∧ (keys m).toFinset = f.keys := by
  refine ⟨hm.nodup_keysBelow m.capacity le_rfl, Finset.ext fun k => ?_⟩
  rw [List.mem_toFinset, Finmap.mem_keys, ← Finmap.lookup_isSome, Option.isSome_iff_exists]
  exact mem_keysBelow_iff.trans (exists_congr fun v => (hf k v).symm)

theorem Inv.len (hm : Inv hash m) (hf : Represents m f) : m.len = f.keys.card := by
  obtain ⟨hnodup, hkeys⟩ := hm.keys hf
  rw [← hkeys, List.toFinset_card_of_nodup hnodup, hm.len_eq]
  exact (length_keysBelow m.entries m.capacity).symm

end Invariant

end Kryos.Runtime.Map
