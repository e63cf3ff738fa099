import Kryos.Wasm.IntAgreement

/-!
# Integer code of the two backends, run by run

Unary operators and casts, and then whole runs: along any sequence of integer instructions whose
steps meet the condition of `BinopSafe` and `UnopSafe`, every WebAssembly slot holds the extension
of the native value, and the two programs stop at the same instruction or not at all.

## Main results

* `unopAgrees_iff`, `castAgrees` — unary operators and casts
* `runAgrees` — the slot invariant along a run
* `wasm_native_integers_agree` — the conditions and the invariant together
-/

namespace Kryos

namespace Wasm

open Native MachineInt

/-! ## Unary operators and casts -/

/-- Negation is not wrapped, so a narrow result has to fit already; the complement of an unsigned
narrow value never does. -/
def UnopSafe (op : MirUnOp) (t : SlotTy) (x : ℤ) : Prop :=
  match op with
  | .neg => t.width = 64 ∨ t.Fits (-x)
  | .bitNot => t.width = 64 ∨ t.unsigned = false
  | .not => True

instance (op : MirUnOp) (t : SlotTy) (x : ℤ) : Decidable (UnopSafe op t x) := by
  unfold UnopSafe
  cases op <;> infer_instance

section Unary

variable {t : SlotTy}

theorem slot_eq_iff {w : ℕ} (hw : w = t.width) (s : I64) (N : ℤ) :
    s = (ClInt.mk w (BitVec.ofInt w N)).extend t.unsigned 64 ↔ s.toInt = t.norm N := by
  rw [← t.toInt_extend hw, BitVec.toInt_inj]

/-- A value is the residue of its slot. -/
theorem ofInt_slot (v : BitVec t.width) : BitVec.ofInt t.width (t.slot v).toInt = v := by
  rw [← SlotTy.extend_eq v t.width_le, ClInt.extend_self]

theorem unopAgrees_neg_iff (v : BitVec t.width) :
    UnopAgrees .neg t v ↔ UnopSafe .neg t (t.slot v).toInt := by
  have hfits := SlotTy.fits_slot v
  have hslot : (slotUnop .neg (t.slot v)).toInt = (-(t.slot v).toInt).bmod (2 ^ 64) := by
    rw [slotUnop, zero_sub, BitVec.toInt_neg]
  have hval : translateUnop .neg ⟨t.width, v⟩ =
      ⟨t.width, BitVec.ofInt t.width (-(t.slot v).toInt)⟩ := by
    rw [BitVec.ofInt_neg, ofInt_slot]
    rfl
  simp only [UnopAgrees, leaves_emitIntUnop, ResultAgrees, forall_const, hval, unopTy,
    reduceCtorEq, if_false, true_and, slot_eq_iff rfl, hslot, UnopSafe]
  generalize (t.slot v).toInt = x at *
  revert hfits
  cases t <;> simp only [SlotTy.Fits, SlotTy.norm, SlotTy.minSlot, SlotTy.maxSlot, SlotTy.unsigned,
    SlotTy.isNarrow, SlotTy.width, Bool.and_true, Bool.and_false, Bool.false_eq_true, if_true,
    if_false, Int.bmod_def] <;> norm_num <;> omega

theorem unopAgrees_bitNot_iff (v : BitVec t.width) :
    UnopAgrees .bitNot t v ↔ UnopSafe .bitNot t (t.slot v).toInt := by
  have hfits := SlotTy.fits_slot v
  have hslot : (slotUnop .bitNot (t.slot v)).toInt = -(t.slot v).toInt - 1 := by
    have hlt := (t.slot v).isLt
    have hones : (-1 : I64) = BitVec.allOnes 64 := by decide
    rw [slotUnop, hones, BitVec.xor_allOnes, BitVec.toInt_not,
      BitVec.toInt_eq_toNat_bmod, Int.bmod_def, Int.bmod_def]
    push_cast
    split_ifs <;> omega
  have hval : translateUnop .bitNot ⟨t.width, v⟩ =
      ⟨t.width, BitVec.ofInt t.width (-(t.slot v).toInt - 1)⟩ := by
    have h1 : BitVec.ofInt t.width 1 = 1 := rfl
    rw [ofInt_sub, BitVec.ofInt_neg, ofInt_slot, h1, BitVec.neg_eq_not_add]
    simp [translateUnop]
  simp only [UnopAgrees, leaves_emitIntUnop, ResultAgrees, forall_const, hval, unopTy,
    reduceCtorEq, if_false, true_and, slot_eq_iff rfl, hslot, UnopSafe]
  generalize (t.slot v).toInt = x at *
  revert hfits
  cases t <;> simp only [SlotTy.Fits, SlotTy.norm, SlotTy.minSlot, SlotTy.maxSlot, SlotTy.unsigned,
    SlotTy.isNarrow, SlotTy.width, Bool.and_true, Bool.and_false, Bool.false_eq_true, if_true,
    if_false, Int.bmod_def] <;> norm_num <;> omega

theorem slot_eq_zero_iff (v : BitVec t.width) : t.slot v = 0 ↔ v = 0 := by
  constructor
  · intro h
    rw [← ofInt_slot v, h]
    rfl
  · rintro rfl
    apply BitVec.eq_of_toInt_eq
    have h0 : (0 : BitVec t.width).toInt = 0 := BitVec.toInt_zero
    rw [SlotTy.toInt_slot, h0]
    cases t <;> rfl

theorem unopAgrees_not (v : BitVec t.width) : UnopAgrees .not t v := by
  intro scratch locals
  rw [leaves_emitIntUnop]
  refine ⟨rfl, ?_⟩
  simp only [unopTy, if_true, translateUnop, extend_ofBool, slotUnop, slot_eq_zero_iff, beq_iff_eq]

/-- **Unary operators.** -/
theorem unopAgrees_iff (op : MirUnOp) (v : BitVec t.width) :
    UnopAgrees op t v ↔ UnopSafe op t (t.slot v).toInt := by
  cases op with
  | neg => exact unopAgrees_neg_iff v
  | not => exact iff_of_true (unopAgrees_not v) trivial
  | bitNot => exact unopAgrees_bitNot_iff v

/-- **Casts** always agree. -/
theorem castAgrees {src dst : SlotTy} (hdst : dst.isInt) (v : BitVec src.width) :
    CastAgrees src dst v := by
  intro ops hops locals
  have hval : translateCast ⟨src.width, v⟩ src.unsigned dst.width =
      ⟨dst.width, (src.slot v).setWidth dst.width⟩ := by
    unfold translateCast
    split
    · rw [SlotTy.extend_eq v dst.width_le, ← SlotTy.setWidth_eq_ofInt _ dst.width_le]
    · rename_i hge
      have hv : (src.slot v).setWidth src.width = v := by
        rw [SlotTy.setWidth_eq_ofInt _ src.width_le, ofInt_slot]
      rw [← BitVec.setWidth_setWidth_of_le (src.slot v) (not_lt.mp hge), hv]
  rw [leaves_emitCast hdst hops, hval]
  exact ⟨rfl, rfl⟩

end Unary

/-! ## Integer code -/

/-- An `Assign` to an integer or boolean local. -/
inductive IntInst
  | const (dest : LocalId) (v : I64)
  | use (dest src : LocalId)
  | binOp (dest : LocalId) (op : MirBinOp) (left right : LocalId)
  | unOp (dest : LocalId) (op : MirUnOp) (operand : LocalId)
  | cast (dest operand : LocalId)
  deriving Repr, DecidableEq

section Runs

-- the declared types of the locals of a function, and how many there are
variable (Γ : LocalId → SlotTy) (n : ℕ)

namespace IntInst

/-- Every local is declared, and the destination has the type lowering gives the result. -/
def WellTyped : IntInst → Prop
  | const dest _ => dest < n
  | use dest src => dest < n ∧ src < n ∧ Γ dest = Γ src
  | binOp dest op left right => dest < n ∧ left < n ∧ right < n ∧ isIntOp op = true ∧
      (Γ left).isInt = true ∧ Γ dest = resultTy op (Γ left) (Γ right)
  | unOp dest op operand => dest < n ∧ operand < n ∧ Γ dest = unopTy op (Γ operand)
  | cast dest operand => dest < n ∧ operand < n ∧ (Γ dest).isInt = true

/-- The WebAssembly code of an instruction; the scratch local is the one after the MIR locals. -/
def emit : IntInst → Option (List Op)
  | const dest v => some [.i64Const v, .localSet dest]
  | use dest src => some [.localGet src, .localSet dest]
  | binOp dest op left right => (emitIntBinop (Γ left).toMir (Γ right).toMir op).map fun ops =>
      [.localGet left, .localGet right] ++ (ops ++ [.localSet dest])
  | unOp dest op operand => some ([.localGet operand] ++ (emitIntUnop n op ++ [.localSet dest]))
  | cast dest operand => (emitCast (Γ dest).toMir).map fun ops =>
      [.localGet operand] ++ (ops ++ [.localSet dest])

/-- The native effect of an instruction. A constant is reduced to the width of its local. -/
def nativeStep (s : LocalId → ClInt) : IntInst → Except Panic (LocalId → ClInt)
  | const dest v => .ok (Function.update s dest ⟨(Γ dest).width, v.setWidth (Γ dest).width⟩)
  | use dest src => .ok (Function.update s dest (s src))
  | binOp dest op left right =>
    (translateBinOp op (s left) (s right) (Γ left).unsigned (Γ right).unsigned false).map
      fun v => Function.update s dest v
  | unOp dest op operand => .ok (Function.update s dest (translateUnop op (s operand)))
  | cast dest operand =>
    .ok (Function.update s dest
      (translateCast (s operand) (Γ operand).unsigned (Γ dest).width))

/-- The signed reading of the slot a native value should have. -/
def reading (s : LocalId → ClInt) (i : LocalId) : ℤ := ((s i).extend (Γ i).unsigned 64).toInt

/-- The condition on the state before the instruction. -/
def Safe (s : LocalId → ClInt) : IntInst → Prop
  | const dest v => (Γ dest).Fits v.toInt
  | binOp _ op left right =>
    BinopSafe op (Γ left) (Γ right) (reading Γ s left) (reading Γ s right)
  | unOp _ op operand => UnopSafe op (Γ operand) (reading Γ s operand)
  | use _ _ | cast _ _ => True

end IntInst

/-- The native program along a path. -/
def nativeRun : List IntInst → (LocalId → ClInt) → Except Panic (LocalId → ClInt)
  | [], s => .ok s
  | i :: is, s => i.nativeStep Γ s >>= nativeRun is

/-- The emitted code of a path, run from an empty operand stack. -/
def wasmRun : List (List Op) → (ℕ → I64) → Except Trap (ℕ → I64)
  | [], locals => .ok locals
  | ops :: code, locals => execOps ops ⟨locals, []⟩ >>= fun m => wasmRun code m.locals

/-- Each step of the run meets its condition. -/
def SafeRun : List IntInst → (LocalId → ClInt) → Prop
  | [], _ => True
  | i :: is, s => i.Safe Γ s ∧ ∀ s', i.nativeStep Γ s = .ok s' → SafeRun is s'

/-- **The slot invariant.** Every local's slot is the extension of its value at its type. -/
def SlotInv (s : LocalId → ClInt) (locals : ℕ → I64) : Prop :=
  ∀ i < n, (s i).width = (Γ i).width ∧ locals i = (s i).extend (Γ i).unsigned 64

/-- Both programs stopped, or the invariant holds of the states they reached. -/
def RunAgrees : Except Panic (LocalId → ClInt) → Except Trap (ℕ → I64) → Prop
  | .ok s, .ok locals => SlotInv Γ n s locals
  | .error _, .error _ => True
  | _, _ => False

variable {Γ n}

/-- A native value of the width of a type is a value of that type. -/
theorem exists_value {v : ClInt} {t : SlotTy} (h : v.width = t.width) :
    ∃ a : BitVec t.width, v = ⟨t.width, a⟩ := by
  obtain ⟨w, bits⟩ := v
  subst h
  exact ⟨bits, rfl⟩

variable {s : LocalId → ClInt} {locals : ℕ → I64}

/-- Writing a value and its slot keeps the invariant. -/
theorem SlotInv.update (h : SlotInv Γ n s locals) {dest : LocalId} {v : ClInt} {x : I64}
    (hw : v.width = (Γ dest).width) (hx : x = v.extend (Γ dest).unsigned 64) :
    SlotInv Γ n (Function.update s dest v) (Function.update locals dest x) := by
  intro i hi
  by_cases hid : i = dest
  · subst hid
    rw [Function.update_self, Function.update_self]
    exact ⟨hw, hx⟩
  · rw [Function.update_of_ne hid, Function.update_of_ne hid]
    exact h i hi

/-- The scratch local is not a MIR local. -/
theorem SlotInv.unopLocals {s : LocalId → ClInt} {locals : ℕ → I64} (h : SlotInv Γ n s locals)
    (op : MirUnOp) (a : I64) : SlotInv Γ n s (unopLocals n op locals a) := by
  cases op with
  | neg =>
    intro i hi
    rw [Wasm.unopLocals, Function.update_of_ne hi.ne]
    exact h i hi
  | not | bitNot => exact h

/-- Code that leaves one value, followed by the assignment of its destination. -/
theorem execOps_localSet {ops : List Op} {m : Machine} {result : Except Trap I64}
    (h : execOps ops m = result.map fun v => ⟨locals, [.i64 v]⟩) (dest : LocalId) :
    (execOps (ops ++ [.localSet dest]) m).map Machine.locals =
      result.map fun v => Function.update locals dest v := by
  rw [execOps_append, h]
  cases result <;> rfl

/-- If the results agree, so do the states after the assignment. -/
theorem SlotInv.assign (h : SlotInv Γ n s locals) {dest : LocalId} {slot : Except Trap I64}
    {value : Except Panic ClInt} (hres : ResultAgrees (Γ dest) slot value) :
    RunAgrees Γ n (value.map fun v => Function.update s dest v)
      (slot.map fun x => Function.update locals dest x) := by
  cases slot with
  | error e =>
    cases value with
    | error e' => trivial
    | ok v => exact hres
  | ok x =>
    cases value with
    | error e' => exact hres
    | ok v => exact h.update hres.1 hres.2

/-- **One step.** -/
theorem stepAgrees (h : SlotInv Γ n s locals) {i : IntInst} (hty : i.WellTyped Γ n)
    (hsafe : i.Safe Γ s) {ops : List Op} (hops : i.emit Γ n = some ops) :
    RunAgrees Γ n (i.nativeStep Γ s) ((execOps ops ⟨locals, []⟩).map Machine.locals) := by
  cases i with
  | const dest v =>
    cases hops
    refine h.update rfl (BitVec.eq_of_toInt_eq ?_)
    exact ((SlotTy.toInt_wrap _ v).trans (SlotTy.norm_of_fits hsafe)).symm
  | use dest src =>
    cases hops
    obtain ⟨hd, hs, hΓ⟩ := hty
    obtain ⟨hw, hx⟩ := h src hs
    exact h.update (hΓ ▸ hw) (hΓ ▸ hx)
  | binOp dest op left right =>
    obtain ⟨hd, hl, hr, hop, hint, hΓ⟩ := hty
    obtain ⟨bops, hb, rfl⟩ := Option.map_eq_some_iff.mp hops
    obtain ⟨hwl, hxl⟩ := h left hl
    obtain ⟨hwr, hxr⟩ := h right hr
    obtain ⟨a, ha⟩ := exists_value hwl
    obtain ⟨b, hb'⟩ := exists_value hwr
    simp only [IntInst.Safe, IntInst.reading, ha, hb'] at hsafe
    have hres := (binopAgrees_iff hint a b hop).mpr hsafe bops hb locals
    rw [leaves_emitIntBinop hb, ← hΓ] at hres
    have hexec : execOps ([.localGet left, .localGet right] ++ bops) ⟨locals, []⟩ =
        ((rawBinop op ((Γ left).slot a) ((Γ right).slot b)).map
          (narrowWrap op (Γ left) (Γ right))).map fun v => ⟨locals, [.i64 v]⟩ := by
      rw [← execOps_emitIntBinop hb]
      change execOps bops ⟨locals, [.i64 (locals right), .i64 (locals left)]⟩ = _
      rw [hxl, hxr, ha, hb']
      rfl
    rw [← List.append_assoc, execOps_localSet hexec]
    simp only [IntInst.nativeStep, ha, hb']
    exact h.assign hres
  | unOp dest op operand =>
    cases hops
    obtain ⟨hd, ho, hΓ⟩ := hty
    obtain ⟨hw, hx⟩ := h operand ho
    obtain ⟨a, ha⟩ := exists_value hw
    simp only [IntInst.Safe, IntInst.reading, ha] at hsafe
    have hres := (unopAgrees_iff op a).mpr hsafe n locals
    rw [leaves_emitIntUnop, ← hΓ] at hres
    have hexec : execOps ([.localGet operand] ++ emitIntUnop n op) ⟨locals, []⟩ =
        (Except.ok (slotUnop op ((Γ operand).slot a))).map fun v =>
          ⟨unopLocals n op locals ((Γ operand).slot a), [.i64 v]⟩ := by
      change execOps (emitIntUnop n op) ⟨locals, [.i64 (locals operand)]⟩ = _
      rw [hx, ha]
      exact execOps_emitIntUnop n op locals _
    rw [← List.append_assoc, execOps_localSet hexec]
    simp only [IntInst.nativeStep, ha]
    exact (h.unopLocals op _).assign hres
  | cast dest operand =>
    obtain ⟨hd, ho, hint⟩ := hty
    obtain ⟨cops, hc, rfl⟩ := Option.map_eq_some_iff.mp hops
    obtain ⟨hw, hx⟩ := h operand ho
    obtain ⟨a, ha⟩ := exists_value hw
    have hres := castAgrees hint a cops hc locals
    rw [leaves_emitCast hint hc] at hres
    have hexec : execOps ([.localGet operand] ++ cops) ⟨locals, []⟩ =
        (Except.ok ((Γ dest).wrap ((Γ operand).slot a))).map fun v => ⟨locals, [.i64 v]⟩ := by
      change execOps cops ⟨locals, [.i64 (locals operand)]⟩ = _
      rw [hx, ha]
      exact execOps_emitCast hint hc locals _
    rw [← List.append_assoc, execOps_localSet hexec]
    simp only [IntInst.nativeStep, ha]
    exact h.assign hres

/-- **The slot invariant along a run.** On every path whose steps meet their condition the two
programs stop together, and while they run every slot holds the extension of its value. -/
theorem runAgrees {path : List IntInst} {code : List (List Op)}
    (hcode : path.mapM (IntInst.emit Γ n) = some code) (hty : ∀ i ∈ path, i.WellTyped Γ n)
    (h : SlotInv Γ n s locals) (hsafe : SafeRun Γ path s) :
    RunAgrees Γ n (nativeRun Γ path s) (wasmRun code locals) := by
  induction path generalizing code s locals with
  | nil =>
    cases hcode
    exact h
  | cons i is ih =>
    simp only [List.mapM_cons, Option.bind_eq_bind, Option.bind_eq_some_iff, Option.pure_def,
      Option.some.injEq] at hcode
    obtain ⟨ops, hops, code', hcode', rfl⟩ := hcode
    obtain ⟨hs, hrest⟩ := hsafe
    have hstep := stepAgrees h (hty i List.mem_cons_self) hs hops
    simp only [nativeRun, wasmRun]
    cases hn : i.nativeStep Γ s with
    | error e =>
      cases he : execOps ops ⟨locals, []⟩ with
      | error e' => trivial
      | ok m =>
        rw [hn, he] at hstep
        exact hstep.elim
    | ok s' =>
      cases he : execOps ops ⟨locals, []⟩ with
      | error e' =>
        rw [hn, he] at hstep
        exact hstep.elim
      | ok m =>
        rw [hn, he] at hstep
        exact ih hcode' (fun j hj => hty j (List.mem_cons_of_mem i hj)) hstep (hrest s' hn)

end Runs

/-! ## The backends together -/

/-- **The two backends on integers.** A binary operator agrees exactly under `BinopSafe` and a unary
one exactly under `UnopSafe`; casts always agree; and along every path whose steps meet their
condition the slot invariant holds and the programs stop together. -/
theorem wasm_native_integers_agree (op : MirBinOp) (uop : MirUnOp) (l r : SlotTy)
    (a : BitVec l.width) (b : BitVec r.width) (Γ : LocalId → SlotTy) (n : ℕ)
    (path : List IntInst) (code : List (List Op)) :
    (isIntOp op = true → l.isInt = true →
      (BinopAgrees op l r a b ↔ BinopSafe op l r (l.slot a).toInt (r.slot b).toInt)) ∧
    (UnopAgrees uop l a ↔ UnopSafe uop l (l.slot a).toInt) ∧
    (r.isInt = true → CastAgrees l r a) ∧
    (path.mapM (IntInst.emit Γ n) = some code → (∀ i ∈ path, i.WellTyped Γ n) →
      ∀ (s : LocalId → ClInt) (locals : ℕ → I64), SlotInv Γ n s locals → SafeRun Γ path s →
        RunAgrees Γ n (nativeRun Γ path s) (wasmRun code locals)) :=
  ⟨fun hop hl => binopAgrees_iff hl a b hop, unopAgrees_iff uop a,
    fun hdst => castAgrees hdst a,
    fun hcode hty _ _ h hsafe => runAgrees hcode hty h hsafe⟩

/-- Two `u8` locals, `_0 = 250` and `_1 = _0 + _0`: the slot of `_1` is `244` on both backends. -/
theorem wasm_native_integers_agree_u8 :
    RunAgrees (fun _ => .u8) 2
      (nativeRun (fun _ => .u8) [.const 0 250, .binOp 1 .add 0 0] fun _ => ⟨8, 0⟩)
      (wasmRun [[.i64Const 250, .localSet 0],
        [.localGet 0, .localGet 0, .i64Add, .i64Const 0xFF, .i64And, .localSet 1]] fun _ => 0) := by
  refine (wasm_native_integers_agree .add .neg .u8 .u8 0 0 _ _
    [.const 0 250, .binOp 1 .add 0 0] _).2.2.2 rfl ?_ _ _ ?_ ?_
  · intro i hi
    fin_cases hi <;>
      simp [IntInst.WellTyped, isIntOp, SlotTy.isInt, resultTy, isComparison, SlotTy.wider]
  · intro i _
    exact ⟨rfl, rfl⟩
  · refine ⟨?_, fun s hs => ⟨?_, fun _ _ => trivial⟩⟩
    · change SlotTy.u8.Fits (250 : I64).toInt
      decide
    · cases hs
      change (wrapTy .u8 .u8).Fits ((SlotTy.u8.wider .u8).norm (slotResult .add _ _))
      decide

/-- `2 ^ 63 / 2` on `u64`: the native quotient is `2 ^ 62`, the slot holds `-2 ^ 62`. -/
theorem u64_upper_half_divides_wrongly :
    ¬∀ (op : MirBinOp) (l r : SlotTy), isIntOp op = true → l.isInt = true → r.isInt = true →
      ∀ (a : BitVec l.width) (b : BitVec r.width), BinopAgrees op l r a b := by
  intro h
  have hdiv := h .div .u64 .u64 rfl rfl rfl (BitVec.ofNat 64 (2 ^ 63)) (BitVec.ofNat 64 2) _ rfl
    fun _ => 0
  exact absurd hdiv.2 (by decide)

end Wasm

end Kryos
