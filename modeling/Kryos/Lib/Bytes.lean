import Mathlib.Data.Int.ModEq
import Mathlib.Tactic.LinearCombination
import Mathlib.Tactic.Ring

/-!
# Integers as little-endian bytes

An integer written to `n` bytes in two's complement, least significant byte first, and read back as
a natural number. Writing is total: what does not fit is cut off, so what is read back is the
integer modulo `256 ^ n`.

## Main results

* `LittleEndian.decode_encode` — reading back what was written
* `LittleEndian.encode_eq_encode_iff` — two integers have the same bytes iff they are congruent
* `LittleEndian.getElem?_splice` — the bytes of a buffer part of which was overwritten
-/

namespace LittleEndian

/-- The least significant byte. -/
def byte (v : ℤ) : UInt8 :=
  UInt8.ofNat (v % 256).toNat

/-- The `n` least significant bytes. -/
def encode : ℕ → ℤ → List UInt8
  | 0, _ => []
  | n + 1, v => byte v :: encode n (v / 256)

def decode : List UInt8 → ℕ
  | [] => 0
  | b :: bs => b.toNat + 256 * decode bs

@[simp] theorem length_encode (n : ℕ) (v : ℤ) : (encode n v).length = n := by
  induction n generalizing v with
  | zero => rfl
  | succ n ih => rw [encode, List.length_cons, ih]

theorem toNat_byte (v : ℤ) : ((byte v).toNat : ℤ) = v % 256 := by
  have hnonneg : 0 ≤ v % 256 := Int.emod_nonneg v (by decide)
  have hlt : v % 256 < 256 := Int.emod_lt_of_pos v (by decide)
  rw [byte, UInt8.toNat_ofNat', Nat.mod_eq_of_lt (by omega)]
  exact Int.toNat_of_nonneg hnonneg

/-- The digits of `v` below `256 ^ (n + 1)`: the last one and the others. -/
theorem emod_pow_succ (v : ℤ) (n : ℕ) :
    v % 256 ^ (n + 1) = v % 256 + 256 * (v / 256 % 256 ^ n) := by
  have hpos : (0 : ℤ) < 256 ^ n := Int.pow_pos (by decide)
  have hlow := Int.emod_add_mul_ediv v 256
  have hhigh := Int.emod_add_mul_ediv (v / 256) (256 ^ n)
  have hsplit : v = v % 256 + 256 * (v / 256 % 256 ^ n) + 256 ^ (n + 1) * (v / 256 / 256 ^ n) := by
    rw [pow_succ']
    linear_combination -hlow - 256 * hhigh
  have hlow₀ := Int.emod_nonneg v (show (256 : ℤ) ≠ 0 by decide)
  have hlow₁ := Int.emod_lt_of_pos v (show (0 : ℤ) < 256 by decide)
  have hhigh₀ := Int.emod_nonneg (v / 256) hpos.ne'
  have hhigh₁ := Int.emod_lt_of_pos (v / 256) hpos
  conv_lhs => rw [hsplit]
  rw [Int.add_mul_emod_self_left, Int.emod_eq_of_lt (by omega)]
  rw [pow_succ']
  omega

theorem decode_encode (n : ℕ) (v : ℤ) : (decode (encode n v) : ℤ) = v % 256 ^ n := by
  induction n generalizing v with
  | zero => simp [encode, decode, Int.emod_one]
  | succ n ih =>
    rw [encode, decode, emod_pow_succ]
    push_cast
    rw [toNat_byte, ih]

theorem decode_lt (bs : List UInt8) : decode bs < 256 ^ bs.length := by
  induction bs with
  | nil => decide
  | cons b bs ih =>
    have hb := b.toNat_lt
    rw [decode, List.length_cons, pow_succ]
    omega

/-- What was written is read back, if it fits. -/
theorem decode_encode_of_lt {n : ℕ} {v : ℤ} (hnonneg : 0 ≤ v) (hlt : v < 256 ^ n) :
    (decode (encode n v) : ℤ) = v := by
  rw [decode_encode, Int.emod_eq_of_lt hnonneg hlt]

theorem encode_emod (n : ℕ) (v : ℤ) : encode n (v % 256 ^ n) = encode n v := by
  induction n generalizing v with
  | zero => rfl
  | succ n ih =>
    have hbyte : byte (v % 256 ^ (n + 1)) = byte v := by
      rw [byte, byte, Int.emod_emod_of_dvd v (dvd_pow_self 256 (Nat.succ_ne_zero n))]
    have hrest : v % 256 ^ (n + 1) / 256 = v / 256 % 256 ^ n := by
      rw [emod_pow_succ, Int.add_mul_ediv_left _ _ (by decide),
        Int.ediv_eq_zero_of_lt (Int.emod_nonneg v (by decide))
          (Int.emod_lt_of_pos v (by decide)), zero_add]
    rw [encode, encode, hbyte, hrest, ih]

theorem encode_eq_encode_iff {n : ℕ} {v w : ℤ} :
    encode n v = encode n w ↔ v ≡ w [ZMOD 256 ^ n] := by
  constructor
  · intro h
    have hdecode : (decode (encode n v) : ℤ) = decode (encode n w) := by rw [h]
    rwa [decode_encode, decode_encode] at hdecode
  · intro h
    rw [← encode_emod n v, ← encode_emod n w, h.eq]

/-! ## Reading fields of a buffer -/

/-- The `n` bytes at `off`, as a number. -/
def read (buf : List UInt8) (off n : ℕ) : ℕ :=
  decode ((buf.drop off).take n)

/-- A field of a buffer that starts with fields. -/
theorem read_flatten (fields : List (List UInt8)) (rest : List UInt8) {f : List UInt8}
    {k off n : ℕ} (hk : fields[k]? = some f)
    (hoff : ((fields.map List.length).take k).sum = off) (hn : f.length = n) :
    read (fields.flatten ++ rest) off n = decode f := by
  obtain ⟨hlt, hf⟩ := List.getElem?_eq_some_iff.mp hk
  have hsplit : fields = fields.take k ++ f :: fields.drop (k + 1) := by
    rw [← hf, ← List.drop_eq_getElem_cons hlt, List.take_append_drop]
  have hlen : (fields.take k).flatten.length = off := by
    rw [List.length_flatten, List.map_take, hoff]
  rw [read, hsplit]
  simp only [List.flatten_append, List.flatten_cons, List.append_assoc]
  rw [List.drop_append_of_le_length hlen.ge, List.drop_eq_nil_of_le hlen.le, List.nil_append,
    List.take_append_of_le_length hn.ge, List.take_of_length_le hn.le]

/-! ## Overwriting part of a buffer -/

variable {α : Type*}

/-- Overwrite the elements from position `i` on. -/
def splice (xs : List α) (i : ℕ) (ys : List α) : List α :=
  xs.take i ++ ys ++ xs.drop (i + ys.length)

theorem length_splice {xs ys : List α} {i : ℕ} (h : i + ys.length ≤ xs.length) :
    (splice xs i ys).length = xs.length := by
  simp only [splice, List.length_append, List.length_take, List.length_drop]
  omega

theorem getElem?_splice {xs ys : List α} {i : ℕ} (h : i + ys.length ≤ xs.length) (k : ℕ) :
    (splice xs i ys)[k]? =
      if i ≤ k ∧ k < i + ys.length then ys[k - i]? else xs[k]? := by
  have hlen : (xs.take i).length = i := by
    rw [List.length_take]
    omega
  rw [splice, List.append_assoc]
  by_cases hlt : k < i
  · rw [List.getElem?_append_left (by omega), List.getElem?_take_of_lt hlt, if_neg (by omega)]
  · rw [List.getElem?_append_right (by omega), hlen]
    by_cases hin : k < i + ys.length
    · rw [List.getElem?_append_left (by omega), if_pos ⟨by omega, hin⟩]
    · rw [List.getElem?_append_right (by omega), List.getElem?_drop, if_neg (by omega)]
      congr 1
      omega

/-- Overwrite several parts, one after the other. -/
def splices (xs : List α) (patches : List (ℕ × List α)) : List α :=
  patches.foldl (fun buf patch => splice buf patch.1 patch.2) xs

/-- The patch covers position `k`. -/
def Covers (patch : ℕ × List α) (k : ℕ) : Prop :=
  patch.1 ≤ k ∧ k < patch.1 + patch.2.length

section

variable {xs : List α} {patches : List (ℕ × List α)}
  (h : ∀ patch ∈ patches, patch.1 + patch.2.length ≤ xs.length)

include h

theorem length_splices : (splices xs patches).length = xs.length := by
  induction patches generalizing xs with
  | nil => rfl
  | cons patch patches ih =>
    have hhead := length_splice (h patch List.mem_cons_self)
    rw [splices, List.foldl_cons]
    exact (ih fun q hq => by rw [hhead]; exact h q (List.mem_cons_of_mem patch hq)).trans hhead

/-- A position no patch covers keeps its element. -/
theorem getElem?_splices_of_not_covers {k : ℕ} (hk : ∀ patch ∈ patches, ¬ Covers patch k) :
    (splices xs patches)[k]? = xs[k]? := by
  induction patches generalizing xs with
  | nil => rfl
  | cons patch patches ih =>
    have hhead := h patch List.mem_cons_self
    have hlen := length_splice hhead
    rw [splices, List.foldl_cons]
    refine (ih (fun q hq => ?_) fun q hq => hk q (List.mem_cons_of_mem patch hq)).trans ?_
    · rw [hlen]
      exact h q (List.mem_cons_of_mem patch hq)
    · rw [getElem?_splice hhead, if_neg]
      exact hk patch List.mem_cons_self

/-- A position that one patch covers and no later one holds the element of that patch. -/
theorem getElem?_splices_of_mem {k : ℕ}
    (hapart : patches.Pairwise fun q q' => ∀ k, ¬ (Covers q k ∧ Covers q' k)) {patch : ℕ × List α}
    (hmem : patch ∈ patches) (hk : Covers patch k) :
    (splices xs patches)[k]? = patch.2[k - patch.1]? := by
  induction patches generalizing xs with
  | nil => exact absurd hmem List.not_mem_nil
  | cons q patches ih =>
    have hhead := h q List.mem_cons_self
    have hlen := length_splice hhead
    obtain ⟨hq, hrest⟩ := List.pairwise_cons.mp hapart
    have hbounds : ∀ q' ∈ patches, q'.1 + q'.2.length ≤ (splice xs q.1 q.2).length := by
      intro q' hq'
      rw [hlen]
      exact h q' (List.mem_cons_of_mem q hq')
    rw [splices, List.foldl_cons]
    obtain rfl | htail := List.mem_cons.mp hmem
    · refine (getElem?_splices_of_not_covers hbounds fun q' hq' hc => ?_).trans ?_
      · exact hq q' hq' k ⟨hk, hc⟩
      · rw [getElem?_splice hhead]
        exact if_pos hk
    · exact ih hbounds hrest htail

end

end LittleEndian
