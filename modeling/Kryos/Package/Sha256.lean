import Kryos.Lib.SecureHash

/-!
# Checksums

The SHA-256 of the package crate, over bytes and words of 32 bits.

* `sha256_correct` — it is the hash of the standard
-/

namespace Kryos.Package.Sha256

open SecureHash (State cut ofBytes)

abbrev Bytes := List UInt8

def K : List (BitVec 32) := [
  0x428a2f98, 0x71374491, 0xb5c0fbcf, 0xe9b5dba5, 0x3956c25b, 0x59f111f1, 0x923f82a4, 0xab1c5ed5,
  0xd807aa98, 0x12835b01, 0x243185be, 0x550c7dc3, 0x72be5d74, 0x80deb1fe, 0x9bdc06a7, 0xc19bf174,
  0xe49b69c1, 0xefbe4786, 0x0fc19dc6, 0x240ca1cc, 0x2de92c6f, 0x4a7484aa, 0x5cb0a9dc, 0x76f988da,
  0x983e5152, 0xa831c66d, 0xb00327c8, 0xbf597fc7, 0xc6e00bf3, 0xd5a79147, 0x06ca6351, 0x14292967,
  0x27b70a85, 0x2e1b2138, 0x4d2c6dfc, 0x53380d13, 0x650a7354, 0x766a0abb, 0x81c2c92e, 0x92722c85,
  0xa2bfe8a1, 0xa81a664b, 0xc24b8b70, 0xc76c51a3, 0xd192e819, 0xd6990624, 0xf40e3585, 0x106aa070,
  0x19a4c116, 0x1e376c08, 0x2748774c, 0x34b0bcb5, 0x391c0cb3, 0x4ed8aa4a, 0x5b9cca4f, 0x682e6ff3,
  0x748f82ee, 0x78a5636f, 0x84c87814, 0x8cc70208, 0x90befffa, 0xa4506ceb, 0xbef9a3f7, 0xc67178f2]

def H0 : State :=
  ⟨0x6a09e667, 0xbb67ae85, 0x3c6ef372, 0xa54ff53a, 0x510e527f, 0x9b05688c, 0x1f83d9ab, 0x5be0cd19⟩

/-- `to_be_bytes` of a number of `n` bytes -/
def toBeBytes : ℕ → ℕ → Bytes
  | 0, _ => []
  | n + 1, x => toBeBytes n (x / 256) ++ [UInt8.ofNat x]

def fromBeBytes (bytes : Bytes) : BitVec 32 :=
  BitVec.ofNat 32 (bytes.foldl (fun n b => 256 * n + b.toNat) 0)

/-- The loop that pushes zeros. -/
def pushZeros (padded : Bytes) : Bytes :=
  if padded.length % 64 ≠ 56 then pushZeros (padded ++ [0]) else padded
termination_by (56 + 64 - padded.length % 64) % 64
decreasing_by
  rw [List.length_append, List.length_singleton]
  omega

def padded (input : Bytes) : Bytes :=
  let bitLen : BitVec 64 := BitVec.ofNat 64 input.length * 8
  pushZeros (input ++ [0x80]) ++ toBeBytes 8 bitLen.toNat

/-- The word `w[i]` from the words in front of it. -/
def nextWord (w : List (BitVec 32)) (i : ℕ) : BitVec 32 :=
  let w15 := w.getD (i - 15) 0
  let w2 := w.getD (i - 2) 0
  let s0 := w15.rotateRight 7 ^^^ w15.rotateRight 18 ^^^ w15 >>> 3
  let s1 := w2.rotateRight 17 ^^^ w2.rotateRight 19 ^^^ w2 >>> 10
  w.getD (i - 16) 0 + s0 + w.getD (i - 7) 0 + s1

/-- The array `w` of a chunk. -/
def messageWords (chunk : Bytes) : List (BitVec 32) :=
  let w := (List.range' 0 16).foldl
    (fun w i => w.set i (fromBeBytes ((chunk.drop (i * 4)).take 4))) (List.replicate 64 0)
  (List.range' 16 48).foldl (fun w i => w.set i (nextWord w i)) w

/-- One pass of the loop over `i`, with the variables `a` to `hh`. -/
def pass (w : List (BitVec 32)) (v : State) (i : ℕ) : State :=
  let s1 := v.e.rotateRight 6 ^^^ v.e.rotateRight 11 ^^^ v.e.rotateRight 25
  let ch := (v.e &&& v.f) ^^^ (~~~v.e &&& v.g)
  let temp1 := v.h + s1 + ch + K.getD i 0 + w.getD i 0
  let s0 := v.a.rotateRight 2 ^^^ v.a.rotateRight 13 ^^^ v.a.rotateRight 22
  let maj := (v.a &&& v.b) ^^^ (v.a &&& v.c) ^^^ (v.b &&& v.c)
  let temp2 := s0 + maj
  ⟨temp1 + temp2, v.a, v.b, v.c, v.d + temp1, v.e, v.f, v.g⟩

def processChunk (h : State) (chunk : Bytes) : State :=
  let w := messageWords chunk
  let v := (List.range 64).foldl (pass w) h
  ⟨h.a + v.a, h.b + v.b, h.c + v.c, h.d + v.d, h.e + v.e, h.f + v.f, h.g + v.g, h.h + v.h⟩

def sha256 (input : Bytes) : Bytes :=
  ((cut 64 (padded input)).foldl processChunk H0).words.flatMap fun word => toBeBytes 4 word.toNat

/-- `{byte:02x}` -/
def hexByte (byte : UInt8) : List Char :=
  [Nat.digitChar (byte.toNat / 16), Nat.digitChar (byte.toNat % 16)]

def sha256Hex (input : Bytes) : String := String.ofList ((sha256 input).flatMap hexByte)

/-! ## The constants -/

def primes : List ℕ := [
  2, 3, 5, 7, 11, 13, 17, 19, 23, 29, 31, 37, 41, 43, 47, 53, 59, 61, 67, 71, 73, 79, 83, 89, 97,
  101, 103, 107, 109, 113, 127, 131, 137, 139, 149, 151, 157, 163, 167, 173, 179, 181, 191, 193,
  197, 199, 211, 223, 227, 229, 233, 239, 241, 251, 257, 263, 269, 271, 277, 281, 283, 293, 307, 311]

theorem nth_eq_getD_filter (p : ℕ → Prop) [DecidablePred p] (N : ℕ) {t : ℕ}
    (ht : t < ((List.range N).filter p).length) :
    Nat.nth p t = ((List.range N).filter p).getD t 0 := by
  induction N with
  | zero => exact absurd ht (Nat.not_lt_zero t)
  | succ N ih =>
    rw [List.range_succ, List.filter_append] at ht ⊢
    rcases Nat.lt_or_ge t ((List.range N).filter p).length with hlt | hge
    · rw [ih hlt, List.getD_append _ _ _ _ hlt]
    · rw [List.length_append] at ht
      by_cases hN : p N
      · rw [List.filter_cons_of_pos (by simpa using hN), List.filter_nil] at ht ⊢
        obtain rfl := Nat.le_antisymm (Nat.lt_succ_iff.mp ht) hge
        have hcount : Nat.count p N = ((List.range N).filter p).length :=
          List.countP_eq_length_filter
        rw [List.getD_append_right _ _ _ _ hge, Nat.sub_self, ← hcount]
        exact Nat.nth_count hN
      · rw [List.filter_cons_of_neg (by simpa using hN)] at ht
        exact absurd ht (Nat.not_lt.mpr hge)

/-- Trial division by the primes whose squares matter. -/
theorem prime_iff {n : ℕ} (h : n < 18 * 18) :
    n.Prime ↔ 2 ≤ n ∧ ∀ m ∈ [2, 3, 5, 7, 11, 13, 17], m * m ≤ n → ¬m ∣ n := by
  have htwo : ∀ m ∈ [2, 3, 5, 7, 11, 13, 17], 2 ≤ m := by decide
  have hfactor : ∀ m < 18, 2 ≤ m → ∃ q ∈ [2, 3, 5, 7, 11, 13, 17], q ∣ m ∧ q ≤ m := by decide
  rw [Nat.prime_def_le_sqrt]
  refine and_congr_right fun _ => ⟨fun hn m hm hle => hn m (htwo m hm) (Nat.le_sqrt.mpr hle),
    fun hn m hm hle hdvd => ?_⟩
  rw [Nat.le_sqrt] at hle
  obtain ⟨q, hq, hqm, hqle⟩ := hfactor m (Nat.mul_self_lt_mul_self_iff.mp (hle.trans_lt h)) hm
  exact hn q hq ((Nat.mul_self_le_mul_self hqle).trans hle) (hqm.trans hdvd)

set_option maxRecDepth 10000 in
theorem nth_prime {t : ℕ} (ht : t < 64) : Nat.nth Nat.Prime t = primes.getD t 0 := by
  have htrial : (List.range 312).filter
      (fun n => 2 ≤ n ∧ ∀ m ∈ [2, 3, 5, 7, 11, 13, 17], m * m ≤ n → ¬m ∣ n) = primes := by decide
  have hall : (List.range 312).filter (fun n => n.Prime) = primes := by
    rw [← htrial]
    exact List.filter_congr fun n hn => decide_eq_decide.mpr
      (prime_iff ((List.mem_range.mp hn).trans (by decide)))
  rw [← hall]
  exact nth_eq_getD_filter Nat.Prime 312 (by rw [hall]; exact ht)

theorem K_eq {t : ℕ} (ht : t < 64) : K.getD t 0 = SecureHash.roundConstant t := by
  have hall : K = primes.map (SecureHash.rootBits 3) := by decide +kernel
  have hlen : t < primes.length := ht
  rw [SecureHash.roundConstant, nth_prime ht, hall, List.getD_eq_getElem _ _ (by simpa using hlen),
    List.getElem_map, List.getD_eq_getElem _ _ hlen]

theorem H0_eq : H0 = SecureHash.initial := by
  simp (disch := decide) only [SecureHash.initial, SecureHash.initialWord, nth_prime]
  decide

/-! ## Padding -/

theorem pushZeros_eq (bytes : Bytes) : ∃ k < 64, (bytes.length + k) % 64 = 56 ∧
    pushZeros bytes = bytes ++ List.replicate k 0 := by
  induction bytes using pushZeros.induct with
  | case1 bytes h ih =>
    obtain ⟨k, hk, hlen, heq⟩ := ih
    rw [List.length_append, List.length_singleton] at hlen
    refine ⟨k + 1, by omega, by omega, ?_⟩
    rw [pushZeros, if_pos h, heq, List.append_assoc]
    rfl
  | case2 bytes h =>
    refine ⟨0, by decide, not_not.mp h, ?_⟩
    rw [pushZeros, if_neg h, List.replicate_zero, List.append_nil]

theorem ofBytes_toBeBytes (n x : ℕ) : ofBytes (toBeBytes n x) = SecureHash.binary (8 * n) x := by
  induction n generalizing x with
  | zero => rfl
  | succ n ih =>
    rw [toBeBytes, SecureHash.ofBytes_append, ih, Nat.mul_succ, SecureHash.binary_add]
    refine congrArg (_ ++ ·) ?_
    rw [SecureHash.ofBytes_cons, UInt8.toNat_ofNat', SecureHash.binary_mod]
    exact List.append_nil _

theorem ofBytes_zeros (k : ℕ) : ofBytes (List.replicate k 0) = List.replicate (8 * k) false := by
  induction k with
  | zero => rfl
  | succ k ih =>
    rw [List.replicate_succ, SecureHash.ofBytes_cons, ih, Nat.mul_succ, Nat.add_comm,
      List.replicate_add]
    rfl

theorem ofBytes_padded {input : Bytes} (h : input.length < 2 ^ 61) :
    ofBytes (padded input) = SecureHash.pad (ofBytes input) := by
  obtain ⟨k, hk, hlen, heq⟩ := pushZeros_eq (input ++ [0x80])
  rw [List.length_append, List.length_singleton] at hlen
  have hbits : (BitVec.ofNat 64 input.length * 8).toNat = 8 * input.length := by
    rw [BitVec.toNat_mul, BitVec.toNat_ofNat, Nat.mod_eq_of_lt (h.trans (by decide))]
    exact (Nat.mod_eq_of_lt (Nat.mul_lt_mul_of_pos_right h (by decide))).trans (Nat.mul_comm _ _)
  have hzeros : SecureHash.zeros (8 * input.length) = 7 + 8 * k :=
    SecureHash.zeros_eq (by omega) (by omega)
  rw [padded, heq, hbits, SecureHash.ofBytes_append, SecureHash.ofBytes_append,
    SecureHash.ofBytes_append, ofBytes_zeros, ofBytes_toBeBytes, SecureHash.pad,
    SecureHash.length_ofBytes, hzeros, List.replicate_add, List.append_assoc, List.append_assoc,
    List.append_assoc]
  rfl

/-! ## Compression -/

/-- The words below `n` have their values. -/
def Filled (g : ℕ → BitVec 32) (n : ℕ) (w : List (BitVec 32)) : Prop :=
  w.length = 64 ∧ ∀ t < n, w.getD t 0 = g t

/-- A loop that fills them in, in order. -/
theorem Filled.foldl_set {g : ℕ → BitVec 32} {f : List (BitVec 32) → ℕ → BitVec 32} {s n : ℕ}
    {w : List (BitVec 32)} (h : Filled g s w) (hn : s + n ≤ 64)
    (hf : ∀ i w, s ≤ i → i < s + n → Filled g i w → f w i = g i) :
    Filled g (s + n) ((List.range' s n).foldl (fun w i => w.set i (f w i)) w) := by
  induction n with
  | zero => exact h
  | succ n ih =>
    obtain ⟨hlen, hw⟩ := ih (by omega) fun i w hi hi' => hf i w hi (by omega)
    rw [List.range'_1_concat, List.foldl_append]
    generalize (List.range' s n).foldl _ w = w' at hlen hw
    refine ⟨(List.length_set ..).trans hlen, fun t ht => ?_⟩
    rw [List.foldl_cons, List.foldl_nil, hf _ w' (Nat.le_add_right s n) (by omega) ⟨hlen, hw⟩,
      List.getD_eq_getElem?_getD, List.getElem?_set]
    split
    · next heq => rw [if_pos (by omega), heq, Option.getD_some]
    · exact hw t (by omega)

theorem messageWords_eq (chunk : Bytes) {t : ℕ} (ht : t < 64) :
    (messageWords chunk).getD t 0 = SecureHash.schedule (ofBytes chunk) t := by
  have hnone : Filled (SecureHash.schedule (ofBytes chunk)) 0 (List.replicate 64 0) :=
    ⟨List.length_replicate, fun t ht => absurd ht (Nat.not_lt_zero t)⟩
  have hread := hnone.foldl_set (f := fun _ i => fromBeBytes ((chunk.drop (i * 4)).take 4))
    (n := 16) (by decide) fun i w _ hi _ => by
      rw [SecureHash.schedule, if_pos (by omega), fromBeBytes, ← SecureHash.value_ofBytes,
        ← SecureHash.take_ofBytes, ← SecureHash.drop_ofBytes, ← Nat.mul_assoc, Nat.mul_right_comm]
  have hfilled := hread.foldl_set (f := nextWord) (n := 48) (by decide) fun i w h16 hi hw => by
    have hword (j : ℕ) (hj : 0 < j) : w.getD (i - j) 0 = _ := hw.2 (i - j) (by omega)
    rw [nextWord, hword 15 (by decide), hword 2 (by decide), hword 16 (by decide),
      hword 7 (by decide), SecureHash.schedule.eq_def _ i, if_neg (Nat.not_lt.mpr h16),
      SecureHash.smallSigma0, SecureHash.smallSigma1]
    ac_rfl
  exact hfilled.2 t ht

theorem processChunk_eq (h : State) (chunk : Bytes) :
    processChunk h chunk = SecureHash.compress h (ofBytes chunk) := by
  have hfold : (List.range 64).foldl (pass (messageWords chunk)) h = (List.range 64).foldl
      (fun v t => v.step (SecureHash.roundConstant t) (SecureHash.schedule (ofBytes chunk) t)) h := by
    refine List.foldl_ext _ _ _ fun v t ht => ?_
    rw [← K_eq (List.mem_range.mp ht), ← messageWords_eq chunk (List.mem_range.mp ht)]
    rfl
  rw [processChunk, SecureHash.compress, hfold]
  simp only [BitVec.add_comm]

theorem sha256_eq_hash {input : Bytes} (h : input.length < 2 ^ 61) :
    ofBytes (sha256 input) = SecureHash.hash (ofBytes input) := by
  have hstate : (cut 64 (padded input)).foldl processChunk H0 =
      (cut 512 (SecureHash.pad (ofBytes input))).foldl SecureHash.compress SecureHash.initial := by
    rw [← ofBytes_padded h, ← SecureHash.map_cut_ofBytes (padded input) 64, List.foldl_map, H0_eq,
      funext₂ processChunk_eq]
  rw [sha256, hstate, ofBytes, List.flatMap_assoc, SecureHash.hash]
  exact congrArg (List.flatMap · _) (funext fun w => ofBytes_toBeBytes 4 w.toNat)

theorem flatMap_hexByte (bytes : Bytes) : bytes.flatMap hexByte =
    (cut 4 (ofBytes bytes)).map fun bits => Nat.digitChar (SecureHash.value bits) := by
  induction bytes with
  | nil => rfl
  | cons b bytes ih =>
    have hlen (n : ℕ) : (SecureHash.binary 4 n).length = 4 := SecureHash.length_binary 4 n
    have hhigh : b.toNat / 2 ^ 4 < 2 ^ 4 := Nat.div_lt_of_lt_mul b.toNat_lt
    rw [List.flatMap_cons, ih, SecureHash.ofBytes_cons, SecureHash.binary_add 4 4,
      List.append_assoc, SecureHash.cut_append (by decide) (hlen _),
      SecureHash.cut_append (by decide) (hlen _), List.map_cons, List.map_cons,
      SecureHash.value_binary, SecureHash.value_binary, Nat.mod_eq_of_lt hhigh]
    rfl

/-- **The checksum.** -/
theorem sha256_correct (input : Bytes) (h : input.length < 2 ^ 61) :
    ofBytes (sha256 input) = SecureHash.hash (ofBytes input) ∧
    sha256Hex input = String.ofList
      ((cut 4 (SecureHash.hash (ofBytes input))).map fun bits =>
        Nat.digitChar (SecureHash.value bits)) := by
  rw [sha256Hex, flatMap_hexByte, sha256_eq_hash h]
  exact ⟨rfl, rfl⟩

theorem sha256_correct_abc : ([97, 98, 99] : Bytes).length < 2 ^ 61 ∧
    ofBytes (sha256 [97, 98, 99]) = SecureHash.hash (ofBytes [97, 98, 99]) ∧
    sha256Hex [97, 98, 99] = String.ofList
      ((cut 4 (SecureHash.hash (ofBytes [97, 98, 99]))).map fun bits =>
        Nat.digitChar (SecureHash.value bits)) :=
  ⟨by decide, sha256_correct _ (by decide)⟩

end Kryos.Package.Sha256
