import Mathlib.Data.Nat.NthRoot.Defs
import Mathlib.Data.Nat.Prime.Nth
import Mathlib.Tactic.Ring

/-!
# SHA-256 as FIPS 180-4 defines it

A message is a string of bits. The constants are bits of roots of primes, and the words of the
message schedule are given by a recursion.
-/

namespace SecureHash

abbrev Word := BitVec 32

/-! ## Strings of bits -/

/-- The last `m` binary digits of a number, the most significant one in front. -/
def binary : ℕ → ℕ → List Bool
  | 0, _ => []
  | m + 1, n => binary m (n / 2) ++ [n.testBit 0]

def value (bits : List Bool) : ℕ := bits.foldl (fun n b => 2 * n + b.toNat) 0

/-- The parts of `m` elements each; what is left over is dropped. -/
def cut {α : Type} (m : ℕ) (l : List α) : List (List α) :=
  (List.range (l.length / m)).map fun i => (l.drop (m * i)).take m

/-! ## Functions and constants -/

def ch (x y z : Word) : Word := (x &&& y) ^^^ (~~~x &&& z)

def maj (x y z : Word) : Word := (x &&& y) ^^^ (x &&& z) ^^^ (y &&& z)

def bigSigma0 (x : Word) : Word := x.rotateRight 2 ^^^ x.rotateRight 13 ^^^ x.rotateRight 22

def bigSigma1 (x : Word) : Word := x.rotateRight 6 ^^^ x.rotateRight 11 ^^^ x.rotateRight 25

def smallSigma0 (x : Word) : Word := x.rotateRight 7 ^^^ x.rotateRight 18 ^^^ x >>> 3

def smallSigma1 (x : Word) : Word := x.rotateRight 17 ^^^ x.rotateRight 19 ^^^ x >>> 10

/-- The first 32 bits of the fractional part of the `k`-th root. -/
def rootBits (k p : ℕ) : Word := BitVec.ofNat 32 (Nat.nthRoot k (p * 2 ^ (32 * k)))

/-- From the cube root of the prime with number `t`. -/
noncomputable def roundConstant (t : ℕ) : Word := rootBits 3 (Nat.nth Nat.Prime t)

/-- From its square root. -/
noncomputable def initialWord (t : ℕ) : Word := rootBits 2 (Nat.nth Nat.Prime t)

/-! ## Padding -/

theorem exists_zeros (l : ℕ) : ∃ k, (l + 1 + k) % 512 = 448 := ⟨511 * (l + 1) + 448, by omega⟩

/-- The smallest number of zeros that fills a block up to the length. -/
def zeros (l : ℕ) : ℕ := Nat.find (exists_zeros l)

def pad (message : List Bool) : List Bool :=
  message ++ true :: (List.replicate (zeros message.length) false ++ binary 64 message.length)

/-! ## The hash -/

structure State where
  a : Word
  b : Word
  c : Word
  d : Word
  e : Word
  f : Word
  g : Word
  h : Word
deriving DecidableEq

def State.words (s : State) : List Word := [s.a, s.b, s.c, s.d, s.e, s.f, s.g, s.h]

noncomputable def initial : State :=
  ⟨initialWord 0, initialWord 1, initialWord 2, initialWord 3, initialWord 4, initialWord 5,
    initialWord 6, initialWord 7⟩

/-- The words of the message schedule of a block. -/
def schedule (block : List Bool) (t : ℕ) : Word :=
  if t < 16 then BitVec.ofNat 32 (value ((block.drop (32 * t)).take 32))
  else smallSigma1 (schedule block (t - 2)) + schedule block (t - 7) +
    smallSigma0 (schedule block (t - 15)) + schedule block (t - 16)

def State.step (s : State) (k w : Word) : State :=
  let t1 := s.h + bigSigma1 s.e + ch s.e s.f s.g + k + w
  let t2 := bigSigma0 s.a + maj s.a s.b s.c
  ⟨t1 + t2, s.a, s.b, s.c, s.d + t1, s.e, s.f, s.g⟩

noncomputable def compress (s : State) (block : List Bool) : State :=
  let v := (List.range 64).foldl (fun v t => v.step (roundConstant t) (schedule block t)) s
  ⟨v.a + s.a, v.b + s.b, v.c + s.c, v.d + s.d, v.e + s.e, v.f + s.f, v.g + s.g, v.h + s.h⟩

noncomputable def hash (message : List Bool) : List Bool :=
  ((cut 512 (pad message)).foldl compress initial).words.flatMap fun w => binary 32 w.toNat

/-! ## Rules -/

@[simp] theorem length_binary (m n : ℕ) : (binary m n).length = m := by
  induction m generalizing n with
  | zero => rfl
  | succ m ih => rw [binary, List.length_append, ih, List.length_singleton]

theorem binary_add (m j n : ℕ) : binary (m + j) n = binary m (n / 2 ^ j) ++ binary j n := by
  induction j generalizing n with
  | zero => rw [pow_zero, Nat.div_one, binary, List.append_nil, Nat.add_zero]
  | succ j ih =>
    rw [← Nat.add_assoc, binary, ih, binary, Nat.div_div_eq_div_mul, ← pow_succ', List.append_assoc]

theorem binary_mod (m n : ℕ) : binary m (n % 2 ^ m) = binary m n := by
  induction m generalizing n with
  | zero => rfl
  | succ m ih =>
    rw [binary, binary, Nat.testBit_mod_two_pow, decide_eq_true (Nat.succ_pos m), Bool.true_and,
      pow_succ', Nat.mod_mul_right_div_self, ih]

/-- Reading on over the digits of a number. -/
theorem foldl_binary (m n a : ℕ) :
    (binary m n).foldl (fun n b => 2 * n + b.toNat) a = a * 2 ^ m + n % 2 ^ m := by
  induction m generalizing n with
  | zero => rw [binary, List.foldl_nil, pow_zero, Nat.mul_one, Nat.mod_one, Nat.add_zero]
  | succ m ih =>
    have hbit : (n.testBit 0).toNat = n % 2 := Nat.toNat_testBit n 0 ▸ by simp
    rw [binary, List.foldl_append, ih, List.foldl_cons, List.foldl_nil, hbit, pow_succ',
      Nat.mod_mul]
    ring

theorem value_binary (m n : ℕ) : value (binary m n) = n % 2 ^ m := by
  rw [value, foldl_binary, Nat.zero_mul, Nat.zero_add]

theorem cut_append {α : Type} {m : ℕ} (hm : 0 < m) {l : List α} (h : l.length = m)
    (l' : List α) : cut m (l ++ l') = l :: cut m l' := by
  rw [cut, List.length_append, h, Nat.add_div_left _ hm, List.range_succ_eq_map, List.map_cons,
    List.map_map, Nat.mul_zero, List.drop_zero, List.take_left' h]
  refine congrArg (l :: ·) (List.map_congr_left fun i _ => ?_)
  rw [Function.comp_apply, Nat.mul_succ, Nat.add_comm, ← List.drop_drop, List.drop_left' h]

theorem zeros_eq {l k : ℕ} (hk : k < 512) (h : (l + 1 + k) % 512 = 448) : zeros l = k :=
  (Nat.find_eq_iff _).mpr ⟨h, fun j hj hj' => by omega⟩

/-! ### Bytes -/

def ofBytes (bytes : List UInt8) : List Bool := bytes.flatMap fun b => binary 8 b.toNat

theorem ofBytes_cons (b : UInt8) (bytes : List UInt8) :
    ofBytes (b :: bytes) = binary 8 b.toNat ++ ofBytes bytes := List.flatMap_cons

theorem ofBytes_append (xs ys : List UInt8) : ofBytes (xs ++ ys) = ofBytes xs ++ ofBytes ys :=
  List.flatMap_append

theorem length_ofBytes (bytes : List UInt8) : (ofBytes bytes).length = 8 * bytes.length := by
  induction bytes with
  | nil => rfl
  | cons b bytes ih =>
    rw [ofBytes_cons, List.length_append, length_binary, ih, List.length_cons, Nat.mul_succ,
      Nat.add_comm]

theorem drop_ofBytes : ∀ (bytes : List UInt8) (i : ℕ),
    (ofBytes bytes).drop (8 * i) = ofBytes (bytes.drop i)
  | _, 0 => rfl
  | [], _ + 1 => List.drop_nil
  | b :: bytes, i + 1 => by
    rw [ofBytes_cons, Nat.mul_succ, Nat.add_comm, ← List.drop_drop,
      List.drop_left' (length_binary 8 _), drop_ofBytes bytes i, List.drop_succ_cons]

theorem take_ofBytes : ∀ (bytes : List UInt8) (n : ℕ),
    (ofBytes bytes).take (8 * n) = ofBytes (bytes.take n)
  | _, 0 => rfl
  | [], _ + 1 => List.take_nil
  | b :: bytes, n + 1 => by
    rw [ofBytes_cons, Nat.mul_succ, Nat.add_comm, List.take_add, List.take_left' (length_binary 8 _),
      List.drop_left' (length_binary 8 _), take_ofBytes bytes n, List.take_succ_cons, ofBytes_cons]

theorem map_cut_ofBytes (bytes : List UInt8) (m : ℕ) :
    (cut m bytes).map ofBytes = cut (8 * m) (ofBytes bytes) := by
  rw [cut, cut, List.map_map, length_ofBytes, Nat.mul_div_mul_left _ _ (by decide)]
  refine List.map_congr_left fun i _ => ?_
  rw [Nat.mul_assoc, drop_ofBytes, take_ofBytes]
  rfl

theorem value_ofBytes (bytes : List UInt8) :
    value (ofBytes bytes) = bytes.foldl (fun n b => 256 * n + b.toNat) 0 := by
  rw [value, ofBytes, List.foldl_flatMap]
  refine congrArg (fun f => List.foldl f 0 bytes) (funext fun n => funext fun b => ?_)
  rw [foldl_binary, Nat.mod_eq_of_lt b.toNat_lt, Nat.mul_comm n]
  rfl

end SecureHash
