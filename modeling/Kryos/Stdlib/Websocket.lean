import Kryos.Lib.Bytes

/-!
# WebSocket frames of the standard library

Encoding a payload as an unmasked frame, finding the parts of a frame in a buffer, and unmasking a
payload. Lengths are `usize` words of 64 bits whose sums wrap, and what is reported is an `i64`; a
buffer is a runtime string, whose length an `i64` holds.

The length field of a frame is chosen by the sender. When it makes the sum of the offset and the
length wrap, the frame is accepted with a negative length, and unmasking takes that for an empty
payload.

## Main results

* `Websocket.decodeFrame_encodeFrame` — decoding gives back what was encoded
* `Websocket.decodeFrame_inBounds` — what is reported lies within the buffer, for every buffer
-/

namespace Kryos.Stdlib.Websocket

/-! ## Frames -/

/-- The bytes of a runtime string. -/
structure Buffer where
  bytes : List UInt8
  length_lt : bytes.length < 9223372036854775808

/-- A `usize`. -/
def wrap (n : ℕ) : ℕ := n % 18446744073709551616

/-- `n as i64` of a `usize`. -/
def asI64 (n : ℕ) : ℤ := if n < 9223372036854775808 then n else n - 18446744073709551616

def toBeBytes (width n : ℕ) : List UInt8 := (LittleEndian.encode width n).reverse

def fromBeBytes (bytes : List UInt8) : ℕ := LittleEndian.decode bytes.reverse

/-- The second byte of an unmasked frame and the length field behind it. -/
def lengthField (len : ℕ) : List UInt8 :=
  if len < 126 then [UInt8.ofNat len]
  else if len ≤ 65535 then 126 :: toBeBytes 2 len
  else 127 :: toBeBytes 8 len

def encodeFrame (opcode : UInt8) (data : List UInt8) : List UInt8 :=
  (0x80 ||| (opcode &&& 0x0F)) :: (lengthField data.length ++ data)

/-- What `kryos_ws_decode_frame_ks` stores when it returns 0. -/
structure Frame where
  opcode : ℤ
  fin : ℤ
  payloadOff : ℤ
  payloadLen : ℤ
  totalLen : ℤ
  maskOff : ℤ
  deriving DecidableEq, Repr

/-- `buf[i..j]` -/
def slice (buf : List UInt8) (i j : ℕ) : Option (List UInt8) :=
  if i ≤ j ∧ j ≤ buf.length then some ((buf.drop i).take (j - i)) else none

/-- The payload length and the index behind the length field. -/
def readLength (buf : List UInt8) (len7 : ℕ) : Option (ℕ × ℕ) :=
  if len7 < 126 then some (len7, 2)
  else if len7 = 126 then
    if buf.length < 2 + 2 then none else some (fromBeBytes ((buf.drop 2).take 2), 2 + 2)
  else if buf.length < 2 + 8 then none else some (fromBeBytes ((buf.drop 2).take 8), 2 + 8)

/-- The offset of the mask and the index behind it. -/
def readMask (buf : List UInt8) (masked : Bool) (idx : ℕ) : Option (ℤ × ℕ) :=
  if masked then if buf.length < idx + 4 then none else some (asI64 idx, idx + 4)
  else some (-1, idx)

/-- The check of the total length, and what is stored. -/
def report (buf : List UInt8) (payloadLen payloadOff : ℕ) (maskOff : ℤ) : Option Frame :=
  let totalLen := wrap (payloadOff + payloadLen)
  if buf.length < totalLen then none
  else some {
    opcode := (buf.getD 0 0 &&& 0x0F).toNat
    fin := if buf.getD 0 0 &&& 0x80 != 0 then 1 else 0
    payloadOff := asI64 payloadOff
    payloadLen := asI64 payloadLen
    totalLen := asI64 totalLen
    maskOff := maskOff }

/-- `none` where `kryos_ws_decode_frame_ks` returns -1. -/
def decodeFrame (buf : Buffer) : Option Frame :=
  if buf.bytes.length < 2 then none
  else do
    let b1 := buf.bytes.getD 1 0
    let (payloadLen, idx) ← readLength buf.bytes (b1 &&& 0x7F).toNat
    let (maskOff, payloadOff) ← readMask buf.bytes (b1 &&& 0x80 != 0) idx
    report buf.bytes payloadLen payloadOff maskOff

/-- The end of a call of `kryos_ws_unmask_ks`. -/
inductive Unmasked where
  | payload (bytes : List UInt8)
  /-- the null handle -/
  | null
  /-- an index outside the buffer -/
  | outOfBounds
  deriving DecidableEq, Repr

def kryosWsUnmask (buf : Buffer) (payloadOff payloadLen maskOff : ℤ) : Unmasked :=
  let off := payloadOff.toNat
  let len := payloadLen.toNat
  if wrap (off + len) > buf.bytes.length then .null
  else
    match slice buf.bytes off (wrap (off + len)) with
    | none => .outOfBounds
    | some payload =>
      if maskOff ≥ 0 then
        let m := maskOff.toNat
        if wrap (m + 4) > buf.bytes.length then .null
        else
          match slice buf.bytes m (wrap (m + 4)) with
          | none => .outOfBounds
          | some mask => .payload (payload.mapIdx fun i b => b ^^^ mask.getD (i &&& 3) 0)
      else .payload payload

/-! ## Words -/

theorem wrap_of_lt {n : ℕ} (h : n < 18446744073709551616) : wrap n = n := Nat.mod_eq_of_lt h

theorem asI64_of_lt {n : ℕ} (h : n < 9223372036854775808) : asI64 n = n := if_pos h

variable {len : ℕ}

/-- A length that makes the sum wrap to an offset within the buffer is negative as an `i64`, by as
much as the sum falls below the offset. -/
theorem asI64_wrap_add {idx : ℕ} (hidx : idx < 9223372036854775808)
    (hlen : len < 18446744073709551616) (htotal : wrap (idx + len) < 9223372036854775808) :
    asI64 idx + asI64 len = asI64 (wrap (idx + len)) := by
  rw [asI64_of_lt hidx, asI64_of_lt htotal]
  simp only [asI64, wrap] at *
  split_ifs <;> omega

theorem fromBeBytes_lt {bytes : List UInt8} {n : ℕ} (h : bytes.length ≤ n) :
    fromBeBytes bytes < 256 ^ n := by
  have hlt := LittleEndian.decode_lt bytes.reverse
  rw [List.length_reverse] at hlt
  exact hlt.trans_le (Nat.pow_le_pow_right (by decide) h)

theorem fromBeBytes_toBeBytes {width n : ℕ} (h : n < 256 ^ width) :
    fromBeBytes (toBeBytes width n) = n := by
  have hdecode := LittleEndian.decode_encode_of_lt (n := width) (v := n) (by omega)
    (by exact_mod_cast h)
  rw [fromBeBytes, toBeBytes, List.reverse_reverse]
  exact_mod_cast hdecode

theorem length_toBeBytes (width n : ℕ) : (toBeBytes width n).length = width := by
  rw [toBeBytes, List.length_reverse, LittleEndian.length_encode]

theorem slice_eq_some {buf : List UInt8} {i j : ℕ} (hij : i ≤ j) (hj : j ≤ buf.length) :
    slice buf i j = some ((buf.drop i).take (j - i)) :=
  if_pos ⟨hij, hj⟩

/-! ## Every buffer -/

theorem readLength_bounds {buf : List UInt8} {len7 idx : ℕ} (hlen7 : len7 < 128)
    (hbuf : 2 ≤ buf.length) (h : readLength buf len7 = some (len, idx)) :
    len < 18446744073709551616 ∧ idx ≤ 10 ∧ idx ≤ buf.length := by
  simp only [readLength] at h
  split_ifs at h with hsmall hmiddle hshort hshort
  · simp only [Option.some.injEq, Prod.mk.injEq] at h
    omega
  · simp only [Option.some.injEq, Prod.mk.injEq] at h
    obtain ⟨rfl, rfl⟩ := h
    have hlt := fromBeBytes_lt (List.length_take_le 2 (buf.drop 2))
    omega
  · simp only [Option.some.injEq, Prod.mk.injEq] at h
    obtain ⟨rfl, rfl⟩ := h
    have hlt := fromBeBytes_lt (List.length_take_le 8 (buf.drop 2))
    omega

theorem readMask_bounds {buf : List UInt8} {masked : Bool} {idx off : ℕ} {maskOff : ℤ}
    (hidx : idx ≤ 10 ∧ idx ≤ buf.length) (h : readMask buf masked idx = some (maskOff, off)) :
    (off ≤ 14 ∧ off ≤ buf.length) ∧ (maskOff < 0 ∨ (maskOff = idx ∧ idx + 4 ≤ buf.length)) := by
  simp only [readMask] at h
  split_ifs at h with hmasked hshort
  · simp only [Option.some.injEq, Prod.mk.injEq] at h
    obtain ⟨rfl, rfl⟩ := h
    exact ⟨by omega, Or.inr ⟨asI64_of_lt (by omega), by omega⟩⟩
  · simp only [Option.some.injEq, Prod.mk.injEq] at h
    omega

variable {buf : Buffer}

/-- Unmasking reads inside the buffer: the payload and the mask lie in it. -/
theorem kryosWsUnmask_inBounds {off : ℕ} {len maskOff : ℤ} {m : ℕ}
    (hoff : off + len.toNat ≤ buf.bytes.length)
    (hmask : maskOff < 0 ∨ (maskOff = m ∧ m + 4 ≤ buf.bytes.length)) :
    ∃ bytes, kryosWsUnmask buf off len maskOff = .payload bytes := by
  have hbuf := buf.length_lt
  rw [kryosWsUnmask, Int.toNat_natCast, wrap_of_lt (by omega), if_neg (by omega),
    slice_eq_some (by omega) hoff]
  rcases hmask with hneg | ⟨rfl, hm⟩
  · exact ⟨_, if_neg (by omega)⟩
  · simp only [Int.toNat_natCast, wrap_of_lt (show m + 4 < 18446744073709551616 by omega),
      if_pos (Int.natCast_nonneg m), if_neg (show ¬ m + 4 > buf.bytes.length by omega),
      slice_eq_some (show m ≤ m + 4 by omega) hm]
    exact ⟨_, rfl⟩

/-- The reported offsets lie within the buffer, and so does what unmasking reads there. -/
def InBounds (buf : Buffer) (f : Frame) : Prop :=
  0 ≤ f.payloadOff ∧ f.payloadOff + f.payloadLen = f.totalLen ∧ f.totalLen ≤ buf.bytes.length ∧
    ∃ bytes, kryosWsUnmask buf f.payloadOff f.payloadLen f.maskOff = .payload bytes

theorem inBounds_report {off : ℕ} {maskOff : ℤ} {m : ℕ} {f : Frame}
    (hlen : len < 18446744073709551616) (hoff : off ≤ buf.bytes.length)
    (hmask : maskOff < 0 ∨ (maskOff = m ∧ m + 4 ≤ buf.bytes.length))
    (h : report buf.bytes len off maskOff = some f) : InBounds buf f := by
  have hbuf := buf.length_lt
  simp only [report] at h
  split at h
  case isTrue => exact absurd h (by simp)
  case isFalse htotal =>
    obtain rfl := Option.some.inj h
    have hsum := asI64_wrap_add (show off < 9223372036854775808 by omega) hlen (by omega)
    have hoff' := asI64_of_lt (show off < 9223372036854775808 by omega)
    have htotal' := asI64_of_lt (show wrap (off + len) < 9223372036854775808 by omega)
    refine ⟨?_, hsum, ?_, ?_⟩
    · show 0 ≤ asI64 off
      omega
    · show asI64 (wrap (off + len)) ≤ buf.bytes.length
      omega
    · show ∃ bytes, kryosWsUnmask buf (asI64 off) (asI64 len) maskOff = .payload bytes
      rw [hoff']
      exact kryosWsUnmask_inBounds (by omega) hmask

theorem toNat_and_lt (b : UInt8) : (b &&& 0x7F).toNat < 128 := by
  rw [UInt8.toNat_and]
  exact Nat.lt_succ_of_le Nat.and_le_right

theorem decodeFrame_inBounds {f : Frame} (h : decodeFrame buf = some f) : InBounds buf f := by
  rw [decodeFrame] at h
  split at h
  case isTrue => exact absurd h (by simp)
  case isFalse hshort =>
    simp only [Option.bind_eq_bind, Option.bind_eq_some_iff, Prod.exists] at h
    obtain ⟨len, idx, hlength, maskOff, off, hmask, hreport⟩ := h
    obtain ⟨hlen, hidx⟩ := readLength_bounds (toNat_and_lt _) (by omega) hlength
    obtain ⟨hoff, hmask⟩ := readMask_bounds hidx hmask
    exact inBounds_report hlen hoff.2 hmask hreport

/-! ## Encoded frames -/

theorem masked_bits_small (h : len < 126) :
    (UInt8.ofNat len &&& 0x7F).toNat = len ∧ UInt8.ofNat len &&& 0x80 = 0 := by
  have hall : ∀ n < 126, (UInt8.ofNat n &&& 0x7F).toNat = n ∧ UInt8.ofNat n &&& 0x80 = 0 := by
    decide
  exact hall len h

theorem opcode_bits {opcode : UInt8} (h : opcode < 16) :
    (0x80 ||| (opcode &&& 0x0F)) &&& 0x0F = opcode ∧ (0x80 ||| (opcode &&& 0x0F)) &&& 0x80 ≠ 0 := by
  have hall : ∀ n < 16, (0x80 ||| (UInt8.ofNat n &&& 0x0F)) &&& 0x0F = UInt8.ofNat n ∧
      (0x80 ||| (UInt8.ofNat n &&& 0x0F)) &&& 0x80 ≠ 0 := by
    decide
  have hop := hall opcode.toNat h
  rwa [UInt8.ofNat_toNat] at hop

/-- An extended length that was written behind two bytes is read back. -/
theorem read_toBeBytes (b0 b1 : UInt8) {width : ℕ} (h : len < 256 ^ width) (tail : List UInt8) :
    fromBeBytes (((b0 :: b1 :: (toBeBytes width len ++ tail)).drop 2).take width) = len := by
  have htake : (toBeBytes width len ++ tail).take width = toBeBytes width len :=
    List.take_left' (length_toBeBytes width len)
  show fromBeBytes ((toBeBytes width len ++ tail).take width) = len
  rw [htake, fromBeBytes_toBeBytes h]

/-- The length field says that there is no mask, and the length is read back. -/
theorem readLength_lengthField (h : len < 18446744073709551616) :
    ∃ b1 ext, lengthField len = b1 :: ext ∧ b1 &&& 0x80 = 0 ∧ ∀ b0 tail,
      readLength (b0 :: b1 :: (ext ++ tail)) (b1 &&& 0x7F).toNat = some (len, 2 + ext.length) := by
  rw [lengthField]
  split_ifs with hsmall hmiddle
  · obtain ⟨hlow, hhigh⟩ := masked_bits_small hsmall
    refine ⟨_, [], rfl, hhigh, fun b0 tail => ?_⟩
    rw [hlow, readLength, if_pos hsmall]
    rfl
  · refine ⟨126, toBeBytes 2 len, rfl, by decide, fun b0 tail => ?_⟩
    have hlen := length_toBeBytes 2 len
    rw [readLength, if_neg (by decide), if_pos (by decide), if_neg, read_toBeBytes _ _ (by omega),
      hlen]
    simp only [List.length_cons, List.length_append]
    omega
  · refine ⟨127, toBeBytes 8 len, rfl, by decide, fun b0 tail => ?_⟩
    have hlen := length_toBeBytes 8 len
    rw [readLength, if_neg (by decide), if_neg (by decide), if_neg,
      read_toBeBytes _ _ (by omega), hlen]
    simp only [List.length_cons, List.length_append]
    omega

/-- The buffer begins with a frame of that opcode and payload, and decoding says so. -/
def Reports (buf : Buffer) (opcode : UInt8) (payload : List UInt8) : Prop :=
  ∃ f, decodeFrame buf = some f ∧ f.opcode = opcode.toNat ∧ f.fin = 1 ∧ f.maskOff = -1 ∧
    f.totalLen = (encodeFrame opcode payload).length ∧
    kryosWsUnmask buf f.payloadOff f.payloadLen f.maskOff = .payload payload

theorem decodeFrame_encodeFrame {opcode : UInt8} {payload rest : List UInt8} (hop : opcode < 16)
    (h : buf.bytes = encodeFrame opcode payload ++ rest) : Reports buf opcode payload := by
  have hbuf := buf.length_lt
  have hlt : payload.length < 9223372036854775808 := by
    rw [h] at hbuf
    simp only [encodeFrame, List.length_append, List.length_cons] at hbuf
    omega
  obtain ⟨hlow, hfin⟩ := opcode_bits hop
  obtain ⟨b1, ext, hfield, hmask, hread⟩ := readLength_lengthField
    (show payload.length < 18446744073709551616 by omega)
  have hbytes : buf.bytes =
      (0x80 ||| (opcode &&& 0x0F)) :: b1 :: (ext ++ (payload ++ rest)) := by
    rw [h, encodeFrame, hfield, List.cons_append, List.cons_append, List.cons_append,
      List.append_assoc]
  have hlength : buf.bytes.length = 2 + ext.length + payload.length + rest.length := by
    rw [hbytes]
    simp only [List.length_cons, List.length_append]
    omega
  have hframe : (encodeFrame opcode payload).length = 2 + ext.length + payload.length := by
    rw [encodeFrame, hfield]
    simp only [List.length_cons, List.length_append]
    omega
  have htotal : wrap (2 + ext.length + payload.length) = 2 + ext.length + payload.length :=
    wrap_of_lt (by omega)
  have hb0 : buf.bytes.getD 0 0 = 0x80 ||| (opcode &&& 0x0F) := by rw [hbytes]; rfl
  have hb1 : buf.bytes.getD 1 0 = b1 := by rw [hbytes]; rfl
  have hreport : decodeFrame buf =
      report buf.bytes payload.length (2 + ext.length) (-1) := by
    have hlength : readLength buf.bytes (b1 &&& 0x7F).toNat =
        some (payload.length, 2 + ext.length) := by
      rw [hbytes]
      exact hread _ _
    have hmaskField : readMask buf.bytes (b1 &&& 0x80 != 0) (2 + ext.length) =
        some (-1, 2 + ext.length) := by
      rw [readMask, hmask]
      rfl
    rw [decodeFrame, if_neg (by omega), hb1]
    simp only [hlength, hmaskField, Option.bind_eq_bind, Option.bind_some]
  rw [report, htotal, if_neg (by omega), hb0, hlow] at hreport
  refine ⟨_, hreport, rfl, if_pos (by simpa using hfin), rfl, ?_, ?_⟩
  · rw [hframe]
    exact asI64_of_lt (by omega)
  · show kryosWsUnmask buf (asI64 (2 + ext.length)) (asI64 payload.length) (-1) = .payload payload
    have hslice : slice buf.bytes (2 + ext.length) (2 + ext.length + payload.length) =
        some payload := by
      have hdrop : buf.bytes.drop (2 + ext.length) = payload ++ rest := by
        rw [hbytes, Nat.add_comm]
        exact List.drop_left' rfl
      rw [slice_eq_some (by omega) (by omega), hdrop, Nat.add_sub_cancel_left]
      exact congrArg some (List.take_left' rfl)
    rw [asI64_of_lt (by omega), asI64_of_lt hlt, kryosWsUnmask, Int.toNat_natCast,
      Int.toNat_natCast, htotal, if_neg (by omega), hslice]
    rfl

/-- Decoding is the inverse of encoding, and for any bytes at all what it reports lies within the
buffer. -/
theorem decodeFrame_spec (buf : Buffer) :
    (∀ opcode < 16, ∀ payload rest, buf.bytes = encodeFrame opcode payload ++ rest →
      Reports buf opcode payload) ∧
    ∀ f, decodeFrame buf = some f → InBounds buf f :=
  ⟨fun _ hop _ _ h => decodeFrame_encodeFrame hop h, fun _ h => decodeFrame_inBounds h⟩

theorem decodeFrame_spec_text :
    Reports ⟨encodeFrame 1 [104, 105] ++ [7], by decide⟩ 1 [104, 105] ∧
      InBounds ⟨encodeFrame 1 [104, 105] ++ [7], by decide⟩ ⟨1, 1, 2, 2, 4, -1⟩ :=
  ⟨(decodeFrame_spec ⟨encodeFrame 1 [104, 105] ++ [7], by decide⟩).1 1 (by decide) _ [7] rfl,
    (decodeFrame_spec ⟨encodeFrame 1 [104, 105] ++ [7], by decide⟩).2 _ (by decide)⟩

/-- The length `2 ^ 64 - 1` makes the total length wrap to one byte less than the header. -/
example : decodeFrame ⟨[0x82, 0x7F, 255, 255, 255, 255, 255, 255, 255, 255], by decide⟩ =
    some ⟨2, 1, 10, -1, 9, -1⟩ := by decide

end Kryos.Stdlib.Websocket
