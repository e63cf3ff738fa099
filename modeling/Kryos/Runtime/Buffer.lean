import Mathlib.Data.List.GetD
import Mathlib.Logic.Function.Basic
import Kryos.Lib.Bytes

/-!
# The byte buffers of the runtime

A handle stands for a growable buffer of bytes; a call names one or two handles and takes its values
and offsets as 64-bit words. An offset is read as an unsigned word, so a negative one lies past the
end of every buffer, but the end of a patch is found by an addition that wraps around.

The memory that a buffer asks for is there as long as `Vec` may ask for it, which is up to
`isize::MAX` bytes.

## Main results

* `Buffer.step_of_fits`, `Buffer.step_of_not_fits` — what one call does, and when it fails
* `Buffer.refines_iff` — which sequences of calls do what they would do to lists of bytes
-/

namespace Kryos.Runtime.Buffer

open LittleEndian

/-! ## Buffers -/

/-- `isize::MAX` -/
def isizeMax : ℕ := 2 ^ 63 - 1

/-- Why a call does not return. -/
inductive Fault where
  /-- `capacity overflow`, when a vector would grow past `isize::MAX` -/
  | capacityOverflow
  /-- a slice whose start lies after its end, or whose end lies after the end of the vector -/
  | sliceIndex
  /-- a buffer borrowed as shared and as mutable at once, which leaves the behaviour undefined -/
  | aliased
  deriving DecidableEq, Repr

structure KryosBuf where
  data : List UInt8
  length_le : data.length ≤ isizeMax

namespace KryosBuf

def extendFromSlice (buf : KryosBuf) (bytes : List UInt8) : Except Fault KryosBuf :=
  if h : (buf.data ++ bytes).length ≤ isizeMax then .ok ⟨buf.data ++ bytes, h⟩
  else .error .capacityOverflow

def resize (buf : KryosBuf) (newLen : ℕ) : Except Fault KryosBuf :=
  if buf.data.length < newLen then
    buf.extendFromSlice (List.replicate (newLen - buf.data.length) 0)
  else
    .ok ⟨buf.data.take newLen, (List.length_take_le' newLen buf.data).trans buf.length_le⟩

/-- `data[start..stop].copy_from_slice(&bytes)` -/
def copyToSlice (buf : KryosBuf) (start stop : ℕ) (bytes : List UInt8) : Except Fault KryosBuf :=
  if h : start ≤ stop ∧ stop ≤ buf.data.length ∧ bytes.length = stop - start then
    .ok ⟨splice buf.data start bytes, by
      rw [length_splice (by omega)]
      exact buf.length_le⟩
  else .error .sliceIndex

end KryosBuf

/-! ## Calls on one buffer -/

/-- `byte as u8` -/
def asU8 (v : Int64) : UInt8 := v.toUInt64.toUInt8

/-- `(val as i16).to_le_bytes()` -/
def i16Bytes (val : Int64) : List UInt8 := encode 2 val.toInt16.toInt

/-- `(val as i32).to_le_bytes()` -/
def i32Bytes (val : Int64) : List UInt8 := encode 4 val.toInt32.toInt

/-- `val.to_le_bytes()` -/
def i64Bytes (val : Int64) : List UInt8 := encode 8 val.toInt

def kryosBufNew : KryosBuf := ⟨[], Nat.zero_le _⟩

def kryosBufWriteByte (buf : KryosBuf) (byte : Int64) : Except Fault KryosBuf :=
  buf.extendFromSlice [asU8 byte]

def kryosBufWriteI16Le (buf : KryosBuf) (val : Int64) : Except Fault KryosBuf :=
  buf.extendFromSlice (i16Bytes val)

def kryosBufWriteI32Le (buf : KryosBuf) (val : Int64) : Except Fault KryosBuf :=
  buf.extendFromSlice (i32Bytes val)

def kryosBufWriteI64Le (buf : KryosBuf) (val : Int64) : Except Fault KryosBuf :=
  buf.extendFromSlice (i64Bytes val)

/-- `src` is another buffer than `dst`. -/
def kryosBufWriteBytes (dst src : KryosBuf) (len : Int64) : Except Fault KryosBuf :=
  let n := min len.toUInt64.toNat src.data.length
  dst.extendFromSlice (src.data.take n)

def kryosBufWriteZeros (buf : KryosBuf) (count : Int64) : Except Fault KryosBuf :=
  buf.resize (UInt64.ofNat buf.data.length + (max count 0).toUInt64).toNat

def kryosBufGetByte (buf : KryosBuf) (offset : Int64) : Int64 :=
  let idx := offset.toUInt64.toNat
  if h : idx < buf.data.length then (buf.data[idx]).toUInt64.toInt64 else -1

def kryosBufSetByte (buf : KryosBuf) (offset byte : Int64) : KryosBuf :=
  let idx := offset.toUInt64.toNat
  if idx < buf.data.length then
    ⟨buf.data.set idx (asU8 byte), by rw [List.length_set]; exact buf.length_le⟩
  else buf

/-- The bytes of a patch, behind the check of its end. -/
def patch (buf : KryosBuf) (offset : Int64) (width : UInt64) (bytes : List UInt8) :
    Except Fault KryosBuf :=
  let idx := offset.toUInt64
  if (idx + width).toNat ≤ buf.data.length then
    buf.copyToSlice idx.toNat (idx + width).toNat bytes
  else .ok buf

def kryosBufPatchI32Le (buf : KryosBuf) (offset val : Int64) : Except Fault KryosBuf :=
  patch buf offset 4 (i32Bytes val)

def kryosBufPatchI64Le (buf : KryosBuf) (offset val : Int64) : Except Fault KryosBuf :=
  patch buf offset 8 (i64Bytes val)

/-! ## Sequences of calls -/

/-- A call, on handles in `H`. -/
inductive Call (H : Type) where
  | new (h : H)
  | writeByte (h : H) (byte : Int64)
  | writeI16Le (h : H) (val : Int64)
  | writeI32Le (h : H) (val : Int64)
  | writeI64Le (h : H) (val : Int64)
  | writeBytes (dst src : H) (len : Int64)
  | writeZeros (h : H) (count : Int64)
  | getByte (h : H) (offset : Int64)
  | setByte (h : H) (offset byte : Int64)
  | patchI32Le (h : H) (offset val : Int64)
  | patchI64Le (h : H) (offset val : Int64)

section Runs

variable {H : Type} [DecidableEq H]

/-- The buffer that a call leaves behind its handle. -/
def store (s : H → KryosBuf) (h : H) (r : Except Fault KryosBuf) :
    Except Fault ((H → KryosBuf) × Option Int64) :=
  match r with
  | .ok buf => .ok (Function.update s h buf, none)
  | .error e => .error e

/-- One call, with the word it returns. -/
def step (s : H → KryosBuf) : Call H → Except Fault ((H → KryosBuf) × Option Int64)
  | .new h => store s h (.ok kryosBufNew)
  | .writeByte h byte => store s h (kryosBufWriteByte (s h) byte)
  | .writeI16Le h val => store s h (kryosBufWriteI16Le (s h) val)
  | .writeI32Le h val => store s h (kryosBufWriteI32Le (s h) val)
  | .writeI64Le h val => store s h (kryosBufWriteI64Le (s h) val)
  | .writeBytes dst src len =>
    if dst = src then .error .aliased else store s dst (kryosBufWriteBytes (s dst) (s src) len)
  | .writeZeros h count => store s h (kryosBufWriteZeros (s h) count)
  | .getByte h offset => .ok (s, some (kryosBufGetByte (s h) offset))
  | .setByte h offset byte => store s h (.ok (kryosBufSetByte (s h) offset byte))
  | .patchI32Le h offset val => store s h (kryosBufPatchI32Le (s h) offset val)
  | .patchI64Le h offset val => store s h (kryosBufPatchI64Le (s h) offset val)

def runCalls (s : H → KryosBuf) :
    List (Call H) → Except Fault ((H → KryosBuf) × List (Option Int64))
  | [] => .ok (s, [])
  | c :: cs =>
    match step s c with
    | .error e => .error e
    | .ok (s', out) =>
      match runCalls s' cs with
      | .error e => .error e
      | .ok (s'', outs) => .ok (s'', out :: outs)

end Runs

/-! ## The same calls on lists of bytes -/

namespace Spec

/-- Overwrite the bytes from an offset on, if all of them are there. -/
def overwrite (bs : List UInt8) (off : ℤ) (ys : List UInt8) : List UInt8 :=
  if 0 ≤ off ∧ off + ys.length ≤ bs.length then splice bs off.toNat ys else bs

/-- The byte at an offset, or `-1`. -/
def byteAt (bs : List UInt8) (off : ℤ) : ℤ :=
  if 0 ≤ off ∧ off < bs.length then (bs.getD off.toNat 0).toNat else -1

/-- The bytes that are copied for a length: all of the source if the length, an unsigned word, is
larger than it. -/
def copied (bs : List UInt8) (len : Int64) : List UInt8 :=
  bs.take (len.toInt % 2 ^ 64).toNat

variable {H : Type} [DecidableEq H]

def step (m : H → List UInt8) : Call H → (H → List UInt8) × Option ℤ
  | .new h => (Function.update m h [], none)
  | .writeByte h v => (Function.update m h (m h ++ encode 1 v.toInt), none)
  | .writeI16Le h v => (Function.update m h (m h ++ encode 2 v.toInt), none)
  | .writeI32Le h v => (Function.update m h (m h ++ encode 4 v.toInt), none)
  | .writeI64Le h v => (Function.update m h (m h ++ encode 8 v.toInt), none)
  | .writeBytes dst src len => (Function.update m dst (m dst ++ copied (m src) len), none)
  | .writeZeros h count =>
    (Function.update m h (m h ++ List.replicate count.toInt.toNat 0), none)
  | .getByte h off => (m, some (byteAt (m h) off.toInt))
  | .setByte h off v =>
    (Function.update m h (overwrite (m h) off.toInt (encode 1 v.toInt)), none)
  | .patchI32Le h off v =>
    (Function.update m h (overwrite (m h) off.toInt (encode 4 v.toInt)), none)
  | .patchI64Le h off v =>
    (Function.update m h (overwrite (m h) off.toInt (encode 8 v.toInt)), none)

def runCalls (m : H → List UInt8) : List (Call H) → (H → List UInt8) × List (Option ℤ)
  | [] => (m, [])
  | c :: cs =>
    let (m', out) := step m c
    let (m'', outs) := runCalls m' cs
    (m'', out :: outs)

end Spec


/-! ## Words and bytes -/

theorem toNat_toUInt64 (v : Int64) : (v.toUInt64.toNat : ℤ) = v.toInt % 2 ^ 64 := by
  have hrange : v.toUInt64.toNat < 2 ^ 64 := v.toUInt64.toNat_lt
  have htoInt : v.toInt = v.toBitVec.toInt := rfl
  have htoNat : v.toUInt64.toNat = v.toBitVec.toNat := rfl
  have hcond := BitVec.toInt_eq_toNat_cond v.toBitVec
  split at hcond <;> omega

theorem toInt_range (v : Int64) : -2 ^ 63 ≤ v.toInt ∧ v.toInt < 2 ^ 63 :=
  ⟨v.le_toInt, v.toInt_lt⟩

/-- A word read as unsigned. -/
theorem toNat_toUInt64_cases (v : Int64) :
    0 ≤ v.toInt ∧ v.toUInt64.toNat = v.toInt.toNat ∨
      v.toInt < 0 ∧ (v.toUInt64.toNat : ℤ) = v.toInt + 2 ^ 64 := by
  have hword := toNat_toUInt64 v
  have hrange := toInt_range v
  omega

theorem asU8_eq_byte (v : Int64) : asU8 v = byte v.toInt := by
  apply UInt8.toNat_inj.mp
  have hbyte := toNat_byte v.toInt
  have hword := toNat_toUInt64 v
  have hlow : (asU8 v).toNat = v.toUInt64.toNat % 2 ^ 8 := rfl
  omega

theorem i16Bytes_eq (v : Int64) : i16Bytes v = encode 2 v.toInt := by
  rw [i16Bytes, encode_eq_encode_iff, Int64.toInt_toInt16]
  exact Int.bmod_emod

theorem i32Bytes_eq (v : Int64) : i32Bytes v = encode 4 v.toInt := by
  rw [i32Bytes, encode_eq_encode_iff, Int64.toInt_toInt32]
  exact Int.bmod_emod

theorem encode_one (v : Int64) : encode 1 v.toInt = [asU8 v] := by
  rw [encode, encode, asU8_eq_byte]

/-! ## What a call on one buffer does -/

/-- The result is a buffer with these bytes if `P` holds, and a fault otherwise. -/
structure Meets (r : Except Fault KryosBuf) (bytes : List UInt8) (P : Prop) : Prop where
  ok : P → ∃ buf, r = .ok buf ∧ buf.data = bytes
  fault : ¬ P → ∃ e, r = .error e

variable {bytes : List UInt8}

variable {r : Except Fault KryosBuf}

theorem Meets.congr {bytes' : List UInt8} {P P' : Prop} (h : Meets r bytes P)
    (hbytes : bytes = bytes') (hP : P ↔ P') : Meets r bytes' P' := by
  rwa [← hbytes, ← propext hP]

theorem extendFromSlice_meets (buf : KryosBuf) (bytes : List UInt8) :
    Meets (buf.extendFromSlice bytes) (buf.data ++ bytes)
      (buf.data.length + bytes.length ≤ isizeMax) := by
  rw [← List.length_append]
  constructor
  · intro h
    exact ⟨⟨buf.data ++ bytes, h⟩, dif_pos h, rfl⟩
  · intro h
    exact ⟨.capacityOverflow, dif_neg h⟩

theorem toInt_max_zero (count : Int64) : (max count 0).toUInt64.toNat = count.toInt.toNat := by
  have hmax : (max count 0).toInt = max count.toInt 0 := by
    show (if count ≤ 0 then (0 : Int64) else count).toInt = _
    split
    · next h =>
      have hle : count.toInt ≤ 0 := Int64.le_iff_toInt_le.mp h
      exact (max_eq_right hle).symm
    · next h =>
      have hlt : ¬ count.toInt ≤ 0 := fun hle => h (Int64.le_iff_toInt_le.mpr hle)
      exact (max_eq_left (by omega)).symm
  have hcases := toNat_toUInt64_cases (max count 0)
  omega

/-- The sum of the length and a count does not wrap, since both are below `2 ^ 63`. -/
theorem toNat_length_add (buf : KryosBuf) (count : Int64) :
    (UInt64.ofNat buf.data.length + (max count 0).toUInt64).toNat =
      buf.data.length + count.toInt.toNat := by
  have hlen := buf.length_le
  have hrange := toInt_range count
  rw [UInt64.toNat_add, toInt_max_zero, UInt64.toNat_ofNat']
  simp only [isizeMax] at hlen
  omega

theorem kryosBufWriteZeros_meets (buf : KryosBuf) (count : Int64) :
    Meets (kryosBufWriteZeros buf count) (buf.data ++ List.replicate count.toInt.toNat 0)
      (buf.data.length + count.toInt.toNat ≤ isizeMax) := by
  rw [kryosBufWriteZeros, toNat_length_add, KryosBuf.resize]
  split
  · have h := extendFromSlice_meets buf
      (List.replicate (buf.data.length + count.toInt.toNat - buf.data.length) 0)
    rw [Nat.add_sub_cancel_left] at h ⊢
    rwa [List.length_replicate] at h
  · have hzero : count.toInt.toNat = 0 := by omega
    have hlen := buf.length_le
    constructor
    · intro _
      refine ⟨_, rfl, ?_⟩
      simp [hzero]
    · intro h
      omega

theorem kryosBufWriteBytes_meets (dst src : KryosBuf) (len : Int64) :
    Meets (kryosBufWriteBytes dst src len) (dst.data ++ Spec.copied src.data len)
      (dst.data.length + (Spec.copied src.data len).length ≤ isizeMax) := by
  have hword := toNat_toUInt64 len
  have htake : src.data.take (min len.toUInt64.toNat src.data.length) =
      Spec.copied src.data len := by
    rw [Spec.copied, ← hword, Int.toNat_natCast, List.take_eq_take_iff]
    omega
  rw [kryosBufWriteBytes, htake]
  exact extendFromSlice_meets dst _

theorem kryosBufGetByte_eq (buf : KryosBuf) (offset : Int64) :
    (kryosBufGetByte buf offset).toInt = Spec.byteAt buf.data offset.toInt := by
  have hlen := buf.length_le
  simp only [isizeMax] at hlen
  rw [kryosBufGetByte, Spec.byteAt]
  obtain ⟨hnonneg, hidx⟩ | ⟨hneg, hidx⟩ := toNat_toUInt64_cases offset
  · simp only [hidx]
    by_cases hlt : offset.toInt.toNat < buf.data.length
    · rw [dif_pos hlt, if_pos ⟨hnonneg, by omega⟩, List.getD_eq_getElem _ _ hlt]
      have hbyte := (buf.data[offset.toInt.toNat]).toNat_lt
      have hcases := toNat_toUInt64_cases (buf.data[offset.toInt.toNat]).toUInt64.toInt64
      have hrange := toInt_range (buf.data[offset.toInt.toNat]).toUInt64.toInt64
      rw [UInt64.toUInt64_toInt64, UInt8.toNat_toUInt64] at hcases
      omega
    · rw [dif_neg hlt, if_neg (by omega)]
      rfl
  · have hrange := toInt_range offset
    rw [dif_neg (by omega), if_neg (by omega)]
    rfl

theorem kryosBufSetByte_data (buf : KryosBuf) (offset v : Int64) :
    (kryosBufSetByte buf offset v).data =
      Spec.overwrite buf.data offset.toInt (encode 1 v.toInt) := by
  have hlen := buf.length_le
  simp only [isizeMax] at hlen
  rw [kryosBufSetByte, Spec.overwrite, encode_one]
  obtain ⟨hnonneg, hidx⟩ | ⟨hneg, hidx⟩ := toNat_toUInt64_cases offset
  · simp only [hidx]
    by_cases hlt : offset.toInt.toNat < buf.data.length
    · rw [if_pos hlt, if_pos ⟨hnonneg, by simp; omega⟩]
      show buf.data.set _ _ = _
      rw [List.set_eq_take_append_cons_drop, if_pos hlt, splice]
      simp
    · rw [if_neg hlt, if_neg (by simp; omega)]
  · have hrange := toInt_range offset
    rw [if_neg (by omega), if_neg (by omega)]

/-- The end of a patch before the start of the buffer wraps around to a position in it. -/
def Wraps (off width : ℤ) (len : ℕ) : Prop :=
  off < 0 ∧ 0 ≤ off + width ∧ off + width ≤ len

theorem patch_meets (buf : KryosBuf) (offset : Int64) {width : UInt64}
    (hlen : bytes.length = width.toNat) (hwidth : width.toNat ≤ 8) :
    Meets (patch buf offset width bytes) (Spec.overwrite buf.data offset.toInt bytes)
      (¬ Wraps offset.toInt width.toNat buf.data.length) := by
  have hle := buf.length_le
  simp only [isizeMax] at hle
  have hrange := toInt_range offset
  have hadd : (offset.toUInt64 + width).toNat =
      (offset.toUInt64.toNat + width.toNat) % 2 ^ 64 := UInt64.toNat_add _ _
  simp only [patch, Spec.overwrite, Wraps, KryosBuf.copyToSlice]
  obtain ⟨hnonneg, hidx⟩ | ⟨hneg, hidx⟩ := toNat_toUInt64_cases offset
  · have hend : (offset.toUInt64 + width).toNat = offset.toInt.toNat + width.toNat := by omega
    by_cases hfits : offset.toInt.toNat + width.toNat ≤ buf.data.length
    · rw [if_pos (by omega), dif_pos (by omega), if_pos (by omega)]
      refine ⟨fun _ => ⟨_, rfl, ?_⟩, fun h => ?_⟩
      · show splice _ _ _ = _
        rw [hidx]
      · omega
    · rw [if_neg (by omega), if_neg (by omega)]
      exact ⟨fun _ => ⟨buf, rfl, rfl⟩, fun h => by omega⟩
  · rw [if_neg (c := 0 ≤ offset.toInt ∧ _) (by omega)]
    by_cases hwraps : 0 ≤ offset.toInt + width.toNat ∧
        offset.toInt + width.toNat ≤ buf.data.length
    · rw [if_pos (by omega), dif_neg (by omega)]
      exact ⟨fun h => absurd ⟨hneg, hwraps⟩ h, fun _ => ⟨_, rfl⟩⟩
    · rw [if_neg (by omega)]
      exact ⟨fun _ => ⟨buf, rfl, rfl⟩, fun h => absurd (not_not.mp h).2 hwraps⟩

/-! ## What one call does -/

section Runs

variable {H : Type} [DecidableEq H]

/-- The bytes behind each handle. -/
def contents (s : H → KryosBuf) : H → List UInt8 :=
  fun h => (s h).data

/-- The call is not one of those that fail: it takes no buffer past `isize::MAX`, it does not
append a buffer to itself, and the end of a patch does not wrap around. -/
def Fits (m : H → List UInt8) : Call H → Prop
  | .new _ => True
  | .writeByte h _ => (m h).length + 1 ≤ isizeMax
  | .writeI16Le h _ => (m h).length + 2 ≤ isizeMax
  | .writeI32Le h _ => (m h).length + 4 ≤ isizeMax
  | .writeI64Le h _ => (m h).length + 8 ≤ isizeMax
  | .writeBytes dst src len =>
    dst ≠ src ∧ (m dst).length + (Spec.copied (m src) len).length ≤ isizeMax
  | .writeZeros h count => (m h).length + count.toInt.toNat ≤ isizeMax
  | .getByte _ _ => True
  | .setByte _ _ _ => True
  | .patchI32Le h offset _ => ¬ Wraps offset.toInt 4 (m h).length
  | .patchI64Le h offset _ => ¬ Wraps offset.toInt 8 (m h).length

/-- The call does to the buffers what it does to lists of bytes. -/
def StepRefines (s : H → KryosBuf) (c : Call H) : Prop :=
  ∃ s' out, step s c = .ok (s', out) ∧ contents s' = (Spec.step (contents s) c).1 ∧
    out.map Int64.toInt = (Spec.step (contents s) c).2

theorem contents_update (s : H → KryosBuf) (h : H) (buf : KryosBuf) :
    contents (Function.update s h buf) = Function.update (contents s) h buf.data := by
  funext h'
  by_cases heq : h' = h
  · subst heq
    simp [contents]
  · simp [contents, heq]

variable {s : H → KryosBuf}

theorem store_of_meets {h : H} {P : Prop} (hr : Meets r bytes P) (hP : P) :
    ∃ s', store s h r = .ok (s', none) ∧
      contents s' = Function.update (contents s) h bytes := by
  obtain ⟨buf, rfl, rfl⟩ := hr.ok hP
  exact ⟨_, rfl, contents_update s h buf⟩

theorem store_of_fault {h : H} {P : Prop} (hr : Meets r bytes P) (hP : ¬ P) :
    ∃ e, store s h r = .error e := by
  obtain ⟨e, rfl⟩ := hr.fault hP
  exact ⟨e, rfl⟩

/-- The buffer that a call on one buffer makes, for the calls that make one. -/
theorem call_meets (s : H → KryosBuf) (c : Call H) :
    (∃ h r bytes, step s c = store s h r ∧ Meets r bytes (Fits (contents s) c) ∧
        Spec.step (contents s) c = (Function.update (contents s) h bytes, none)) ∨
      (∃ h len, c = .writeBytes h h len) ∨ ∃ h offset, c = .getByte h offset := by
  cases c with
  | new h =>
    exact .inl ⟨h, _, _, rfl, ⟨fun _ => ⟨kryosBufNew, rfl, rfl⟩, fun hf => absurd trivial hf⟩, rfl⟩
  | writeByte h v =>
    refine .inl ⟨h, _, _, rfl, ?_, rfl⟩
    rw [encode_one]
    exact extendFromSlice_meets (s h) [asU8 v]
  | writeI16Le h v =>
    refine .inl ⟨h, _, _, rfl, ?_, rfl⟩
    rw [← i16Bytes_eq]
    exact extendFromSlice_meets (s h) (i16Bytes v)
  | writeI32Le h v =>
    refine .inl ⟨h, _, _, rfl, ?_, rfl⟩
    rw [← i32Bytes_eq]
    exact extendFromSlice_meets (s h) (i32Bytes v)
  | writeI64Le h v =>
    exact .inl ⟨h, _, _, rfl, extendFromSlice_meets (s h) (i64Bytes v), rfl⟩
  | writeBytes dst src len =>
    by_cases heq : dst = src
    · subst heq
      exact .inr (.inl ⟨dst, len, rfl⟩)
    · refine .inl ⟨dst, _, _, if_neg heq, ?_, rfl⟩
      exact (kryosBufWriteBytes_meets (s dst) (s src) len).congr rfl
        ⟨fun h => ⟨heq, h⟩, fun h => h.2⟩
  | writeZeros h count =>
    exact .inl ⟨h, _, _, rfl, kryosBufWriteZeros_meets (s h) count, rfl⟩
  | getByte h offset => exact .inr (.inr ⟨h, offset, rfl⟩)
  | setByte h offset v =>
    refine .inl ⟨h, _, _, rfl, ⟨fun _ => ⟨_, rfl, ?_⟩, fun hf => absurd trivial hf⟩, rfl⟩
    exact kryosBufSetByte_data (s h) offset v
  | patchI32Le h offset v =>
    refine .inl ⟨h, _, _, rfl, ?_, rfl⟩
    have hlen : (i32Bytes v).length = (4 : UInt64).toNat := length_encode 4 _
    rw [← i32Bytes_eq]
    exact patch_meets (s h) offset hlen (by decide)
  | patchI64Le h offset v =>
    refine .inl ⟨h, _, _, rfl, ?_, rfl⟩
    have hlen : (i64Bytes v).length = (8 : UInt64).toNat := length_encode 8 _
    exact patch_meets (s h) offset hlen (by decide)

theorem step_of_fits {c : Call H} (hc : Fits (contents s) c) : StepRefines s c := by
  obtain ⟨h, r, bytes, hstep, hr, hspec⟩ | ⟨h, len, rfl⟩ | ⟨h, offset, rfl⟩ := call_meets s c
  · obtain ⟨s', hs', hcontents⟩ := store_of_meets (s := s) (h := h) hr hc
    rw [StepRefines, hspec]
    exact ⟨s', none, hstep.trans hs', hcontents, rfl⟩
  · exact absurd rfl hc.1
  · exact ⟨s, _, rfl, rfl, congrArg some (kryosBufGetByte_eq (s h) offset)⟩

theorem step_of_not_fits {c : Call H} (hc : ¬ Fits (contents s) c) : ∃ e, step s c = .error e := by
  obtain ⟨h, r, bytes, hstep, hr, -⟩ | ⟨h, len, rfl⟩ | ⟨h, offset, rfl⟩ := call_meets s c
  · rw [hstep]
    exact store_of_fault hr hc
  · exact ⟨.aliased, if_pos rfl⟩
  · exact absurd trivial hc

/-! ## What a sequence of calls does -/

/-- No call returns a fault, the buffers hold in the end the bytes that the same calls on lists of
bytes leave, and the words returned are the same. -/
def Refines (s : H → KryosBuf) (cs : List (Call H)) : Prop :=
  ∃ s' outs, runCalls s cs = .ok (s', outs) ∧
    contents s' = (Spec.runCalls (contents s) cs).1 ∧
    outs.map (Option.map Int64.toInt) = (Spec.runCalls (contents s) cs).2

/-- Each call of the sequence is made on buffers that it fits. -/
def AllFit (m : H → List UInt8) : List (Call H) → Prop
  | [] => True
  | c :: cs => Fits m c ∧ AllFit (Spec.step m c).1 cs

/-- **The byte buffers are lists of bytes under a sequence of calls exactly if each of its calls
fits.** -/
theorem refines_iff (s : H → KryosBuf) (cs : List (Call H)) :
    Refines s cs ↔ AllFit (contents s) cs := by
  induction cs generalizing s with
  | nil => exact ⟨fun _ => trivial, fun _ => ⟨s, [], rfl, rfl, rfl⟩⟩
  | cons c cs ih =>
    by_cases hc : Fits (contents s) c
    · obtain ⟨s', out, hstep, hcontents, hout⟩ := step_of_fits hc
      have hrest : AllFit (contents s) (c :: cs) ↔ Refines s' cs := by
        rw [ih, hcontents]
        exact ⟨fun h => h.2, fun h => ⟨hc, h⟩⟩
      rw [hrest, Refines, Refines]
      simp only [runCalls, Spec.runCalls, hstep, ← hcontents, ← hout]
      constructor
      · rintro ⟨s'', outs, hrun, hfinal, houts⟩
        generalize hrest : runCalls s' cs = r at hrun
        cases r with
        | error e => cases hrun
        | ok p =>
          cases hrun
          exact ⟨p.1, p.2, rfl, hfinal, (List.cons.inj houts).2⟩
      · rintro ⟨s'', outs, hrun, hfinal, houts⟩
        rw [hrun]
        exact ⟨s'', out :: outs, rfl, hfinal, by rw [List.map_cons, houts]⟩
    · obtain ⟨e, he⟩ := step_of_not_fits hc
      refine ⟨fun ⟨s', outs, hrun, _⟩ => ?_, fun h => absurd h.1 hc⟩
      rw [runCalls, he] at hrun
      cases hrun

end Runs

/-- A patch at offset `-1` of a buffer of three bytes: the end of the slice comes before its
start. -/
theorem patch_before_start_fails :
    ¬ Refines (fun _ : Unit => kryosBufNew)
      [.writeZeros () 3, .patchI32Le () (-1) 0] := by
  rintro ⟨s', outs, hrun, -, -⟩
  have hfault : runCalls (fun _ : Unit => kryosBufNew) [.writeZeros () 3, .patchI32Le () (-1) 0] =
      .error .sliceIndex := by rfl
  rw [hfault] at hrun
  cases hrun

end Kryos.Runtime.Buffer
