import Kryos.Lexer.Pieces
import Mathlib.Data.List.TakeWhile

/-!
# Where the lexer stops

The moves of the lexer over bytes and characters, with what is known of the place where they stop.
Most moves pass over ASCII bytes only, or stop at one, and so stop between two characters. After
`'\` the lexer passes over one byte, which may be the first of several; the search for the closing
quote then ends between two characters again.
-/

namespace Kryos.Lexer

open VariantLoop Kryos.Parser

variable {L lx lx' : Lexer} {ps : List Piece}

/-! ### Between two characters -/

theorem boundary_of_atEnd (hpos : lx.pos ≤ lx.bytes.length) (h : lx.atEnd = true) :
    Boundary lx := by
  rw [Boundary, le_antisymm hpos (atEnd_iff.mp h)]
  exact .length

theorem boundary_of_head (hlt : lx.pos < lx.bytes.length)
    (h : Utf8.isContinuation lx.peek = false) : Boundary lx :=
  (Utf8.isBoundary_iff hlt).mpr (peek_eq hlt ▸ h)

/-- Behind an ASCII byte. -/
theorem boundary_advance (hlt : lx.pos < lx.bytes.length) (h : lx.peek < 0x80) :
    Boundary lx.advance := by
  rw [advance_of_lt hlt]
  exact (Utf8.IsBoundary.of_ascii hlt (peek_eq hlt ▸ h)).2

theorem boundary_of_ascii (hlt : lx.pos < lx.bytes.length) (h : lx.peek < 0x80) : Boundary lx :=
  (Utf8.IsBoundary.of_ascii hlt (peek_eq hlt ▸ h)).1

theorem matchChar_iff {c : Char} :
    lx.matchChar c = true ↔ lx.pos < lx.bytes.length ∧ lx.peek = c.toUInt8 := by
  rw [matchChar, Bool.and_eq_true, Bool.not_eq_true', atEnd_eq_false, beq_iff_eq]

theorem boundary_matchChar {c : Char} (hc : c.toUInt8 < 0x80) (h : lx.matchChar c = true) :
    Boundary lx.advance := by
  obtain ⟨hlt, hpeek⟩ := matchChar_iff.mp h
  exact boundary_advance hlt (hpeek ▸ hc)

theorem isCharBoundary_of_boundary {n : ℕ} (h : Utf8.IsBoundary lx.src n) :
    lx.isCharBoundary n = true := by
  rw [isCharBoundary]
  rcases Nat.lt_or_ge n lx.bytes.length with hlt | hge
  · have hhead := (Utf8.isBoundary_iff hlt).mp h
    rw [List.getD_eq_getElem _ _ hlt]
    rw [show lx.bytes[n] = (Utf8.encode lx.src)[n] from rfl, hhead]
    simp [hlt]
  · have heq : n = lx.bytes.length := le_antisymm h.le hge
    simp [heq]

theorem exists_slice {start stop : ℕ} (hle : start ≤ stop) (hstart : Utf8.IsBoundary lx.src start)
    (hstop : Utf8.IsBoundary lx.src stop) : ∃ text, lx.slice start stop = some text := by
  rw [slice, if_pos ⟨hle, isCharBoundary_of_boundary hstart, isCharBoundary_of_boundary hstop⟩]
  exact ⟨_, rfl⟩

/-! ### Runs of bytes -/

/-- What `advanceWhile` passes over, and where it stops. -/
theorem advanceWhile_stop (lx : Lexer) (p : UInt8 → Bool) :
    (∀ i, lx.pos ≤ i → i < (lx.advanceWhile p).pos → p (lx.bytes.getD i 0) = true) ∧
      ((lx.advanceWhile p).pos < lx.bytes.length → p (lx.advanceWhile p).peek = false) := by
  have hsplit := (lx.bytes.drop lx.pos).takeWhile_append_dropWhile (p := p)
  have hget : ∀ j, lx.bytes[lx.pos + j]? =
      ((lx.bytes.drop lx.pos).takeWhile p ++ (lx.bytes.drop lx.pos).dropWhile p)[j]? := by
    intro j
    rw [hsplit, List.getElem?_drop]
  constructor
  · intro i hi hlt
    obtain ⟨j, rfl⟩ := Nat.exists_eq_add_of_le hi
    have hj : j < ((lx.bytes.drop lx.pos).takeWhile p).length := Nat.lt_of_add_lt_add_left hlt
    rw [List.getD_eq_getElem?_getD, hget, List.getElem?_append_left hj, List.getElem?_eq_getElem hj]
    exact List.mem_takeWhile_imp (List.getElem_mem hj)
  · intro hlt
    have hstop := List.head?_dropWhile_not p (lx.bytes.drop lx.pos)
    have hpeek : (lx.advanceWhile p).peek =
        ((lx.bytes.drop lx.pos).dropWhile p).head?.getD 0 := by
      show lx.bytes.getD (lx.pos + ((lx.bytes.drop lx.pos).takeWhile p).length) 0 = _
      rw [List.getD_eq_getElem?_getD, hget, List.getElem?_append_right le_rfl, Nat.sub_self,
        List.head?_eq_getElem?]
    rw [hpeek]
    cases hhead : ((lx.bytes.drop lx.pos).dropWhile p).head? with
    | some b =>
      rw [hhead] at hstop
      exact hstop
    | none =>
      have hnil := List.head?_eq_none_iff.mp hhead
      rw [hnil, List.append_nil] at hsplit
      have hlen := congrArg List.length hsplit
      rw [List.length_drop] at hlen
      have hlt : lx.pos + ((lx.bytes.drop lx.pos).takeWhile p).length < lx.bytes.length := hlt
      omega

/-- A run of ASCII bytes. -/
theorem boundary_advanceWhile_ascii {p : UInt8 → Bool} (hp : ∀ b, p b = true → b < 0x80)
    (h : Boundary lx) (hpos : (lx.advanceWhile p).pos ≤ lx.bytes.length) :
    Boundary (lx.advanceWhile p) := by
  rcases Nat.lt_or_ge lx.pos (lx.advanceWhile p).pos with hlt | hge
  · -- The last byte that was passed over is below `0x80`.
    obtain ⟨k, hk⟩ : ∃ k, (lx.advanceWhile p).pos = k + 1 := ⟨_, (Nat.succ_pred (by omega)).symm⟩
    have hklt : k < lx.bytes.length := by omega
    have hascii := hp _ ((advanceWhile_stop lx p).1 k (by omega) (by omega))
    rw [List.getD_eq_getElem _ _ hklt] at hascii
    rw [Boundary, hk]
    exact (Utf8.IsBoundary.of_ascii hklt hascii).2
  · have heq : (lx.advanceWhile p).pos = lx.pos := le_antisymm hge (Nat.le_add_right _ _)
    rw [Boundary, heq]
    exact h

/-- A run that ends at no continuation byte. -/
theorem boundary_advanceWhile_stop {p : UInt8 → Bool}
    (hp : ∀ b, p b = false → Utf8.isContinuation b = false)
    (hpos : (lx.advanceWhile p).pos ≤ lx.bytes.length) : Boundary (lx.advanceWhile p) := by
  rcases Nat.lt_or_ge (lx.advanceWhile p).pos lx.bytes.length with hlt | hge
  · exact boundary_of_head hlt (hp _ ((advanceWhile_stop lx p).2 hlt))
  · exact boundary_of_atEnd hpos (atEnd_iff.mpr hge)

/-! ### Whole characters -/

theorem width_pos {b : UInt8} {w : ℕ} (h : Utf8.width b = some w) : 0 < w := by
  rw [Utf8.width] at h
  split_ifs at h <;> cases h <;> decide

/-- A character is passed over as a whole, and anything else byte by byte. -/
theorem advanceUtf8_spec (hlt : lx.pos < lx.bytes.length) :
    ∃ n, lx.advanceUtf8.2 = { lx with pos := n } ∧ lx.pos < n ∧ n ≤ lx.bytes.length ∧
      (Boundary lx → Utf8.IsBoundary lx.src n) := by
  have hone : (Boundary lx → Utf8.IsBoundary lx.src (lx.pos + 1)) →
      ∃ n, lx.advance = { lx with pos := n } ∧ lx.pos < n ∧ n ≤ lx.bytes.length ∧
        (Boundary lx → Utf8.IsBoundary lx.src n) := fun h =>
    ⟨lx.pos + 1, advance_of_lt hlt, Nat.lt_succ_self _, hlt, h⟩
  have hchar : Boundary lx → ∃ c, Utf8.width lx.peek = some c.utf8Size ∧
      (lx.bytes.drop lx.pos).take c.utf8Size = String.utf8EncodeChar c ∧
      lx.pos + c.utf8Size ≤ lx.bytes.length ∧ Utf8.IsBoundary lx.src (lx.pos + c.utf8Size) := by
    intro h
    obtain ⟨c, tail, hdrop, hnext⟩ := Utf8.IsBoundary.next h hlt
    obtain ⟨b, rest, hb, hwidth, -⟩ := Utf8.encodeChar_shape c
    have hdrop : lx.bytes.drop lx.pos = String.utf8EncodeChar c ++ tail := hdrop
    refine ⟨c, ?_, ?_, hnext.le, hnext⟩
    · rw [List.drop_eq_getElem_cons hlt, hb, List.cons_append] at hdrop
      rw [peek_eq hlt, (List.cons.inj hdrop).1]
      exact hwidth
    · rw [hdrop, ← Utf8.length_encodeChar, List.take_left]
  rw [advanceUtf8, atEnd_eq_false.mpr hlt]
  simp only [Bool.false_eq_true, if_false]
  split
  · rename_i hascii
    exact hone fun _ => (Utf8.IsBoundary.of_ascii hlt (peek_eq hlt ▸ hascii)).2
  · split
    · rename_i hnone
      refine hone fun h => ?_
      obtain ⟨c, hwidth, -⟩ := hchar h
      rw [hnone] at hwidth
      cases hwidth
    · rename_i w hw
      split
      · rename_i hlong
        refine hone fun h => ?_
        obtain ⟨c, hwidth, -, hle, -⟩ := hchar h
        obtain rfl : w = c.utf8Size := Option.some.inj (hw.symm.trans hwidth)
        omega
      · rename_i hfits
        split
        · refine ⟨lx.pos + w, rfl, Nat.lt_add_of_pos_right (width_pos hw), by omega, fun h => ?_⟩
          obtain ⟨c, hwidth, -, -, hnext⟩ := hchar h
          obtain rfl : w = c.utf8Size := Option.some.inj (hw.symm.trans hwidth)
          exact hnext
        · rename_i hfail
          refine hone fun h => ?_
          obtain ⟨c, hwidth, htake, -⟩ := hchar h
          obtain rfl : w = c.utf8Size := Option.some.inj (hw.symm.trans hwidth)
          rw [htake, Utf8.decodeChar_encodeChar] at hfail
          cases hfail

theorem Emits.advanceUtf8 (h : Emits L lx ps) : Emits L lx.advanceUtf8.2 ps := by
  cases hend : lx.atEnd with
  | true => rwa [Lexer.advanceUtf8, hend]
  | false =>
    obtain ⟨n, heq, hlt, hle, -⟩ := advanceUtf8_spec (atEnd_eq_false.mp hend)
    rw [heq]
    exact h.moveTo hlt.le hle

theorem boundary_advanceUtf8 (h : Boundary lx) : Boundary lx.advanceUtf8.2 := by
  cases hend : lx.atEnd with
  | true => rwa [Lexer.advanceUtf8, hend]
  | false =>
    obtain ⟨n, heq, -, -, hn⟩ := advanceUtf8_spec (atEnd_eq_false.mp hend)
    rw [heq]
    exact hn h

/-- What is left of the source. -/
def remaining (lx : Lexer) : ℕ := lx.bytes.length - lx.pos

theorem remaining_lt_rounds (h : lx'.bytes = lx.bytes) : lx'.remaining < lx.rounds := by
  rw [remaining, rounds, h]
  exact Nat.lt_succ_of_le (Nat.sub_le _ _)

theorem remaining_lt (hbytes : lx'.bytes = lx.bytes) (hlt : lx.pos < lx'.pos)
    (hpos : lx'.pos ≤ lx.bytes.length) : lx'.remaining < lx.remaining := by
  rw [remaining, remaining, hbytes]
  omega

theorem remaining_moveTo {n : ℕ} (hlt : lx.pos < n) (hn : n ≤ lx.bytes.length) :
    { lx with pos := n }.remaining < lx.remaining := by
  have hbytes : { lx with pos := n }.bytes = lx.bytes := rfl
  exact remaining_lt hbytes hlt hn

theorem remaining_advance (hlt : lx.pos < lx.bytes.length) :
    lx.advance.remaining < lx.remaining := by
  rw [advance_of_lt hlt]
  exact remaining_moveTo (Nat.lt_succ_self _) hlt

theorem remaining_advanceUtf8 (hlt : lx.pos < lx.bytes.length) :
    lx.advanceUtf8.2.remaining < lx.remaining := by
  obtain ⟨n, heq, hn, hle, -⟩ := advanceUtf8_spec hlt
  rw [heq]
  exact remaining_moveTo hn hle

/-- A run of characters stops at the end or at a byte that fails `p`. -/
theorem Emits.advanceUtf8While (h : Emits L lx ps) (p : UInt8 → Bool) :
    ∃ lx', lx.advanceUtf8While p = some lx' ∧ Emits L lx' ps ∧ lx.pos ≤ lx'.pos ∧
      (Boundary lx → Boundary lx') ∧ (lx'.atEnd = true ∨ p lx'.peek = false) := by
  refine iterate_spec remaining
    (I := fun t => Emits L t ps ∧ lx.pos ≤ t.pos ∧ (Boundary lx → Boundary t)) (fun t ht => ?_)
    ⟨h, le_rfl, id⟩ (remaining_lt_rounds rfl)
  obtain ⟨ht, hle, hb⟩ := ht
  by_cases hgo : t.atEnd = false ∧ p t.peek = true
  · have hlt := atEnd_eq_false.mp hgo.1
    obtain ⟨n, heq, hn, -, -⟩ := advanceUtf8_spec hlt
    refine .inl ⟨t.advanceUtf8.2, by rw [hgo.1, hgo.2]; rfl, ⟨ht.advanceUtf8, ?_, fun h => ?_⟩,
      remaining_advanceUtf8 hlt⟩
    · rw [heq]
      exact hle.trans hn.le
    · exact boundary_advanceUtf8 (hb h)
  · have hstop : (!t.atEnd && p t.peek) = false := by
      rw [Bool.and_eq_false_iff, Bool.not_eq_false', Bool.eq_false_iff]
      by_contra hno
      rw [not_or, not_not] at hno
      exact hgo ⟨Bool.eq_false_iff.mpr hno.1, hno.2⟩
    refine .inr ⟨t, by rw [hstop]; rfl, ht, hle, hb, ?_⟩
    rwa [Bool.and_eq_false_iff, Bool.not_eq_false'] at hstop

end Kryos.Lexer
