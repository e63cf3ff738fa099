import Kryos.Lib.FallibleLoop
import Kryos.Lib.ListRel
import Kryos.Lib.Widen
import Kryos.SelfHost.CodegenArith
import Kryos.SelfHost.Optimize

/-!
# What the rewrites of the optimizer preserve

A rewritten right-hand side is compared with the one it replaces by the code that is emitted for
both. Folding is wrong where 32 bits are too few, where a shift counts 32 or more, and for floats,
which the generated code takes for zeros. Of the reductions the one of a division to a shift is
wrong, for dividends that are negative and not divisible. The generated code has no power operator
that any of its rewrites could agree with.

## Main results

* `sameValue_fold_iff`, `sameValue_reduce_iff` — when a rewritten right-hand side has the value of
  the one it replaces
* `passes_preserve_iff` — when both passes preserve all values of a function, and the jumps
-/

namespace Kryos.SelfHost

open X86 Widen

variable {F R I : Type} {env : Env R} {fl : Floats F}

/-- The code for `rv'` leaves what the code for `rv` leaves, and faults where it faults. -/
def SameValue (env : Env R) (rv rv' : RValue F R) : Prop :=
  ∀ dest ∈ raAllocatableRegs, ∀ m, value env dest m rv' = value env dest m rv

theorem SameValue.refl (rv : RValue F R) : SameValue env rv rv := fun _ _ _ => rfl

variable {w : Option (BitVec 64)}

/-- Only a rewrite to an operand or a constant can be told from the values. -/
theorem sameValue_iff {rv rv' : RValue F R} {v : Option (BitVec 64)}
    (hv : ∀ dest m, value env dest m rv = v) (hw : ∀ dest m, value env dest m rv' = w) :
    SameValue env rv rv' ↔ w = v := by
  refine ⟨fun h => ?_, fun h dest _ m => by rw [hv, hw, h]⟩
  have hrax := h rax (by decide) ⟨fun _ => 0, none⟩
  rwa [hv, hw] at hrax

/-- Nothing has the value of a power, for which there is no code. -/
theorem not_sameValue_pow {left right : Option (Operand F)} {rv' : RValue F R}
    (hw : ∀ dest m, value env dest m rv' = w) : ¬SameValue env (.binop .pow left right) rv' := by
  intro h
  have hrax (v : BitVec 64) : w = some v := by
    have hsame := h rax (by decide) ⟨fun _ => v, none⟩
    rwa [hw, value_pow (by decide)] at hsame
  exact absurd ((hrax 0).symm.trans (hrax 1)) (by decide)

/-! ## Folding -/

/-- When an operator on integer constants can be computed in 32 bits. -/
def IntFoldExact (op : BinOp) (a b : BitVec 32) : Prop :=
  match op with
  | .add => Fits (a.toInt + b.toInt)
  | .sub => Fits (a.toInt - b.toInt)
  | .mul => Fits (a.toInt * b.toInt)
  | .shl =>
    if count b < 32 then Fits (a.toInt * 2 ^ count b) else (2 : ℤ) ^ (64 - count b) ∣ a.toInt
  | .shr => 32 ≤ count b → -2 ^ (count b - 32) ≤ a.toInt ∧ a.toInt < 2 ^ (count b - 32)
  | .pow => False
  | _ => True

/-- When an operator on floats has the value that it has on two zeros. A division of zeros
faults. -/
def FloatFoldExact (fl : Floats F) (op : BinOp) (x y : F) : Prop :=
  match op with
  | .div | .mod => fl.eq y fl.zero = true
  | .eq | .neq => fl.eq x y = true
  | .lt => fl.lt x y = false
  | .gt => fl.lt y x = false
  | .ltEq => fl.le x y = true
  | .gtEq => fl.le y x = true
  | .pow => floatPow fl x y = none
  | _ => True

def FoldExact (fl : Floats F) : RValue F R → Prop
  | .binop op (some (.int a)) (some (.int b)) => IntFoldExact op a b
  | .binop op (some (.float x)) (some (.float y)) => FloatFoldExact fl op x y
  | .unop .neg (some (.int v)) => v.toInt ≠ -2 ^ 31
  | _ => True

/-- The values of the constants that folding produces. -/
def Const.value : Const F → BitVec 64
  | .int v => v.signExtend 64
  | .float _ => 0
  | .bool b => ofBool b

theorem value_toRValue (env : Env R) (dest : Reg) (m : Machine) (c : Const F) :
    SelfHost.value env dest m (c.toRValue : RValue F R) = some c.value := by
  cases c with
  | int v => exact value_constInt env dest m v
  | float x => exact value_constFloat env dest m x
  | bool b => exact value_constBool env dest m b

/-- A folded operator other than the power has the value of the operator. -/
theorem sameValue_folded_iff {op : BinOp} (hop : op ≠ .pow) (left right : Operand F) (c : Const F) :
    SameValue env (.binop op (some left) (some right) : RValue F R) c.toRValue ↔
      some c.value = binopValue (cgLoadOperand env left) (cgLoadOperand env right) op :=
  sameValue_iff (fun dest m => value_binop hop env dest m left right)
    fun dest m => value_toRValue env dest m c

variable {a b : BitVec 32}

theorem not_divFaults (hb : b ≠ 0) : ¬DivFaults (a.signExtend 64) (b.signExtend 64) := by
  rw [DivFaults, toInt_signExtend, toInt_signExtend]
  rintro (hzero | ⟨hmin, -⟩)
  · exact hb (BitVec.toInt_inj.mp hzero)
  · have := (fits_toInt a).1
    omega

variable {v : BitVec 32}

theorem ofInt_eq_signExtend {x : ℤ} (h : v.toInt = x) : BitVec.ofInt 64 x = v.signExtend 64 := by
  rw [← BitVec.toInt_inj, BitVec.toInt_ofInt, toInt_signExtend, ← h]
  obtain ⟨hlow, hhigh⟩ := fits_toInt v
  exact bmod_eq_self (by omega) (by omega)

variable {c : Const F}

theorem checkedDiv_ok {q : BitVec 32} (h : checkedDiv a b q = .ok (some c)) :
    c = .int q ∧ b ≠ 0 ∧ ¬(a = BitVec.intMin 32 ∧ b = -1) := by
  rw [checkedDiv] at h
  split_ifs at h with hzero hover
  · cases h
  · cases h
    exact ⟨rfl, hzero, hover⟩

theorem toInt_sdiv (h : ¬(a = BitVec.intMin 32 ∧ b = -1)) :
    (a.sdiv b).toInt = a.toInt.tdiv b.toInt :=
  BitVec.toInt_sdiv_of_ne_or_ne a b (not_and_or.mp h)

/-- A comparison is the same in 32 bits. -/
theorem binopValue_comparison {op : BinOp} (hop : isComparisonOp op = true) (a b : BitVec 32) :
    binopValue (a.signExtend 64) (b.signExtend 64) op =
      some (ofBool ((mirBinopToCc op).compares a.toInt b.toInt)) := by
  have hvalue (a b : BitVec 64) :
      binopValue a b op = some (ofBool ((mirBinopToCc op).compares a.toInt b.toInt)) := by
    cases op <;> first | rfl | cases hop
  rw [hvalue, toInt_signExtend, toInt_signExtend]

theorem foldInt_iff {op : BinOp} (hop : op ≠ .pow) (h : foldIntBinop op a b = .ok (some c)) :
    some c.value = binopValue (a.signExtend 64) (b.signExtend 64) op ↔ IntFoldExact op a b := by
  cases op with
  | pow => exact absurd rfl hop
  | add => cases h; exact Option.some_inj.trans (signExtend_add a b)
  | sub => cases h; exact Option.some_inj.trans (signExtend_sub a b)
  | mul => cases h; exact Option.some_inj.trans (signExtend_mul a b)
  | shl => cases h; exact Option.some_inj.trans (signExtend_shiftLeft a b)
  | shr => cases h; exact Option.some_inj.trans (signExtend_sshiftRight a b)
  | bitAnd => cases h; exact iff_of_true (congrArg some BitVec.signExtend_and) trivial
  | bitOr => cases h; exact iff_of_true (congrArg some BitVec.signExtend_or) trivial
  | bitXor => cases h; exact iff_of_true (congrArg some BitVec.signExtend_xor) trivial
  | div =>
    obtain ⟨rfl, hzero, hover⟩ := checkedDiv_ok h
    rw [binopValue, if_neg (not_divFaults hzero), toInt_signExtend, toInt_signExtend,
      ofInt_eq_signExtend (toInt_sdiv hover)]
    exact iff_of_true rfl trivial
  | mod =>
    obtain ⟨rfl, hzero, -⟩ := checkedDiv_ok h
    rw [binopValue, if_neg (not_divFaults hzero), toInt_signExtend, toInt_signExtend,
      ofInt_eq_signExtend (BitVec.toInt_srem a b)]
    exact iff_of_true rfl trivial
  | and | or => cases h
  | eq =>
    cases h
    rw [binopValue_comparison rfl]
    exact iff_of_true (congrArg (fun b => some (ofBool b)) (decide_eq_decide.mpr
      BitVec.toInt_inj.symm)) trivial
  | neq =>
    cases h
    rw [binopValue_comparison rfl]
    exact iff_of_true (congrArg (fun b => some (ofBool b)) (decide_eq_decide.mpr
      (not_congr BitVec.toInt_inj.symm))) trivial
  | lt | gt | ltEq | gtEq =>
    cases h
    rw [binopValue_comparison rfl]
    exact iff_of_true rfl trivial

/-- Two zeros, which floats are in the generated code. -/
theorem foldFloat_iff {op : BinOp} (hop : op ≠ .pow) {x y : F}
    (h : foldFloatBinop fl op x y = some c) :
    some c.value = binopValue 0 0 op ↔ FloatFoldExact fl op x y := by
  cases op with
  | pow => exact absurd rfl hop
  | add | sub | mul => cases h; exact iff_of_true rfl trivial
  | div | mod =>
    rw [foldFloatBinop] at h
    split_ifs at h with hzero
    cases h
    exact iff_of_false (fun h => by cases h) hzero
  | eq | neq =>
    cases h
    rw [FloatFoldExact, Const.value]
    cases fl.eq x y <;> decide
  | lt =>
    cases h
    rw [FloatFoldExact, Const.value]
    cases fl.lt x y <;> decide
  | gt =>
    cases h
    rw [FloatFoldExact, Const.value]
    cases fl.lt y x <;> decide
  | ltEq =>
    cases h
    rw [FloatFoldExact, Const.value]
    cases fl.le x y <;> decide
  | gtEq =>
    cases h
    rw [FloatFoldExact, Const.value]
    cases fl.le y x <;> decide
  | and | or | bitAnd | bitOr | bitXor | shl | shr => cases h

theorem foldBool_eq {op : BinOp} {a b : Bool} (h : foldBoolBinop op a b = some c) :
    some c.value = binopValue (ofBool a) (ofBool b) op := by
  cases op with
  | and | or | eq | neq => cases h; cases a <;> cases b <;> rfl
  | _ => cases h

theorem intFoldExact_of_not_folded {op : BinOp}
    (h : ∀ c : Const F, foldIntBinop op a b ≠ .ok (some c)) : IntFoldExact op a b := by
  cases op with
  | div | mod | and | or => exact trivial
  | _ => exact absurd rfl (h _)

theorem floatFoldExact_of_not_folded {op : BinOp} {x y : F}
    (h : ∀ c, foldFloatBinop fl op x y ≠ some c) : FloatFoldExact fl op x y := by
  cases op with
  | div | mod =>
    by_contra hne
    exact h _ (if_neg hne)
  | pow =>
    cases hpow : floatPow fl x y with
    | none => exact hpow
    | some z => exact absurd (by rw [foldFloatBinop, hpow]; rfl) (h (.float z))
  | and | or | bitAnd | bitOr | bitXor | shl | shr => exact trivial
  | _ => exact absurd rfl (h _)

theorem forall_toRValue_iff {r : Except Panic (Option (Const F))} {P : RValue F R → Prop} :
    (∀ rv', r.map (Option.map Const.toRValue) = .ok (some rv') → P rv') ↔
      ∀ c, r = .ok (some c) → P c.toRValue := by
  rcases r with e | _ | c
  · exact iff_of_true (fun _ h => by cases h) fun _ h => by cases h
  · exact iff_of_true (fun _ h => by cases h) fun _ h => by cases h
  · exact ⟨fun h c' hc => by cases hc; exact h _ rfl, fun h rv' hrv => by cases hrv; exact h _ rfl⟩

theorem sameValue_foldInt_iff (env : Env R) (op : BinOp) (a b : BitVec 32) :
    (∀ c : Const F, foldIntBinop op a b = .ok (some c) →
      SameValue env (.binop op (some (.int a)) (some (.int b))) c.toRValue) ↔
      IntFoldExact op a b := by
  by_cases hpow : op = .pow
  · subst hpow
    exact iff_of_false (fun h => not_sameValue_pow (fun dest m => value_toRValue env dest m _)
      (h _ rfl)) id
  · constructor
    · intro h
      by_cases hfold : ∃ c : Const F, foldIntBinop op a b = .ok (some c)
      · obtain ⟨c, hc⟩ := hfold
        exact (foldInt_iff hpow hc).mp ((sameValue_folded_iff hpow _ _ c).mp (h c hc))
      · exact intFoldExact_of_not_folded (F := F) (not_exists.mp hfold)
    · intro hexact c hc
      exact (sameValue_folded_iff hpow _ _ c).mpr ((foldInt_iff hpow hc).mpr hexact)

theorem sameValue_foldFloat_iff (env : Env R) (fl : Floats F) (op : BinOp) (x y : F) :
    (∀ c, foldFloatBinop fl op x y = some c →
      SameValue env (.binop op (some (.float x)) (some (.float y))) c.toRValue) ↔
      FloatFoldExact fl op x y := by
  by_cases hfold : ∃ c, foldFloatBinop fl op x y = some c
  · obtain ⟨c, hc⟩ := hfold
    have hiff : (∀ c, foldFloatBinop fl op x y = some c → SameValue env
        (.binop op (some (.float x)) (some (.float y))) c.toRValue) ↔ SameValue env
        (.binop op (some (.float x)) (some (.float y))) c.toRValue :=
      ⟨fun h => h c hc, fun h c' hc' => Option.some_inj.mp (hc.symm.trans hc') ▸ h⟩
    rw [hiff]
    by_cases hpow : op = .pow
    · subst hpow
      refine iff_of_false (not_sameValue_pow fun dest m => value_toRValue env dest m c) fun h => ?_
      rw [foldFloatBinop, show floatPow fl x y = none from h] at hc
      cases hc
    · exact (sameValue_folded_iff hpow _ _ c).trans (foldFloat_iff hpow hc)
  · have hnone := not_exists.mp hfold
    exact iff_of_true (fun c hc => absurd hc (hnone c)) (floatFoldExact_of_not_folded hnone)

theorem sameValue_unop_iff (env : Env R) (op : UnOp) (operand : Operand F) (c : Const F) :
    SameValue env (.unop op (some operand) : RValue F R) c.toRValue ↔
      c.value = unopValue (cgLoadOperand env operand) op :=
  (sameValue_iff (fun dest m => value_unop op env dest m operand)
    fun dest m => value_toRValue env dest m c).trans Option.some_inj

theorem signExtend_not (v : BitVec 32) : (0 - (v + 1)).signExtend 64 = ~~~v.signExtend 64 := by
  have hnot : 0 - (v + 1) = ~~~v := by
    rw [BitVec.not_eq_neg_add]
    bv_omega
  rw [hnot, BitVec.signExtend_not (by decide)]

theorem forall_some_iff {α : Type} {r : α} {P : α → Prop} :
    (∀ r', some r = some r' → P r') ↔ P r :=
  ⟨fun h => h r rfl, fun h _ hr => Option.some_inj.mp hr ▸ h⟩

theorem sameValue_foldUnop_iff (env : Env R) (fl : Floats F) (op : UnOp)
    (operand : Option (Operand F)) :
    (∀ rv', tryFoldUnop fl op operand = some rv' → SameValue env (.unop op operand) rv') ↔
      FoldExact fl (.unop op operand : RValue F R) := by
  have hnone (h : tryFoldUnop fl op operand = (none : Option (RValue F R))) :
      ∀ rv', tryFoldUnop fl op operand = some rv' → SameValue env (.unop op operand) rv' :=
    fun rv' hrv => by cases h.symm.trans hrv
  cases op with
  | neg =>
    rcases operand with _ | (_ | v | x | _ | _ | _)
    case some.int =>
      rw [tryFoldUnop, forall_some_iff]
      refine (sameValue_unop_iff env .neg (.int v) (.int (0 - v))).trans ?_
      have hneg : 0 - v = -v := BitVec.zero_sub v
      rw [Const.value, hneg]
      exact signExtend_neg v
    case some.float =>
      rw [tryFoldUnop, forall_some_iff]
      refine iff_of_true ((sameValue_unop_iff env .neg (.float x) (.float _)).mpr ?_) trivial
      show (0 : BitVec 64) = -0
      decide
    all_goals exact iff_of_true (hnone rfl) trivial
  | not =>
    rcases operand with _ | (_ | _ | _ | b | _ | _)
    case some.bool =>
      rw [tryFoldUnop, forall_some_iff]
      refine iff_of_true ((sameValue_unop_iff env .not (.bool b) (.bool !b)).mpr ?_) trivial
      cases b <;> rfl
    all_goals exact iff_of_true (hnone rfl) trivial
  | bitNot =>
    rcases operand with _ | (_ | v | _ | _ | _ | _)
    case some.int =>
      rw [tryFoldUnop, forall_some_iff]
      exact iff_of_true ((sameValue_unop_iff env .bitNot (.int v) (.int _)).mpr
        (signExtend_not v)) trivial
    all_goals exact iff_of_true (hnone rfl) trivial

theorem sameValue_foldBinop_iff (env : Env R) (fl : Floats F) (op : BinOp)
    (left right : Option (Operand F)) :
    (∀ rv', tryFoldBinop fl op left right = .ok (some rv') →
      SameValue env (.binop op left right) rv') ↔
      FoldExact fl (.binop op left right : RValue F R) := by
  have hnone (h : tryFoldBinop fl op left right = .ok (none : Option (RValue F R))) :
      ∀ rv', tryFoldBinop fl op left right = .ok (some rv') →
        SameValue env (.binop op left right) rv' :=
    fun rv' hrv => by cases h.symm.trans hrv
  rcases left with _ | left
  · exact iff_of_true (hnone rfl) trivial
  rcases right with _ | right
  · exact iff_of_true (hnone (by cases left <;> rfl)) (by cases left <;> trivial)
  cases left with
  | int a =>
    cases right with
    | int b => exact forall_toRValue_iff.trans (sameValue_foldInt_iff env op a b)
    | _ => exact iff_of_true (hnone rfl) trivial
  | float x =>
    cases right with
    | float y =>
      refine Iff.trans ?_ (sameValue_foldFloat_iff env fl op x y)
      refine (forall_toRValue_iff (r := .ok (foldFloatBinop fl op x y))).trans ?_
      exact forall_congr' fun c => imp_congr_left (by rw [Except.ok.injEq])
    | _ => exact iff_of_true (hnone rfl) trivial
  | bool a =>
    cases right with
    | bool b =>
      refine iff_of_true ?_ trivial
      refine (forall_toRValue_iff (r := .ok (foldBoolBinop op a b))).mpr fun c hc => ?_
      have hpow : op ≠ .pow := by
        rintro rfl
        cases hc
      exact (sameValue_folded_iff hpow _ _ c).mpr (foldBool_eq (Except.ok.inj hc))
    | _ => exact iff_of_true (hnone rfl) trivial
  | _ => exact iff_of_true (hnone (by cases right <;> rfl)) (by cases right <;> trivial)

/-- Folding preserves the value if and only if the constants allow it. -/
theorem sameValue_fold_iff (env : Env R) (fl : Floats F) (rv : RValue F R) :
    (∀ rv', tryFold fl rv = .ok (some rv') → SameValue env rv rv') ↔ FoldExact fl rv := by
  cases rv with
  | binop op left right => exact sameValue_foldBinop_iff env fl op left right
  | unop op operand =>
    refine Iff.trans ?_ (sameValue_foldUnop_iff env fl op operand)
    exact forall_congr' fun rv' => imp_congr_left (by rw [tryFold, Except.ok.injEq])
  | _ => exact iff_of_true (fun _ h => by cases h) trivial

/-! ## Reduction -/

/-- When a division or a power may be replaced. -/
def ReduceExact (env : Env R) : RValue F R → Prop
  | .binop .div (some l) (some (.int n)) => 1 < n.toInt → isPowerOfTwo n = true →
    0 ≤ (cgLoadOperand env l).toInt ∨ n.toInt ∣ (cgLoadOperand env l).toInt
  | .binop .pow (some _) (some (.int n)) => n ≠ 0 ∧ n ≠ 1 ∧ n ≠ 2
  | _ => True

variable {l r : Operand F} {op : BinOp}

variable {n : BitVec 32}

theorem eq_int_of_isConst (h : isConst r n = true) : r = .int n := by
  cases r with
  | int v => rw [of_decide_eq_true h]
  | _ => cases h

theorem log2Loop_two_pow (k result : ℕ) : log2Loop (2 ^ k) result = result + k := by
  induction k generalizing result with
  | zero =>
    rw [log2Loop]
    rfl
  | succ k ih =>
    have hpos := Nat.two_pow_pos k
    have hhalf : 2 ^ (k + 1) / 2 = 2 ^ k := by
      rw [pow_succ, Nat.mul_div_cancel _ (by decide)]
    rw [log2Loop, if_pos (by rw [pow_succ]; omega), hhalf, ih, Nat.add_assoc, Nat.add_comm 1]

theorem exists_two_pow (hv : 0 < v.toInt) (h : isPowerOfTwo v = true) :
    ∃ k < 31, v.toInt = 2 ^ k := by
  have hcond := BitVec.toInt_eq_toNat_cond v
  have hnat : v.toInt = v.toNat := by
    split_ifs at hcond <;> omega
  rw [isPowerOfTwo, if_neg (Int.not_le.mpr hv), decide_eq_true_eq] at h
  have hand := congrArg BitVec.toNat h
  have hpred : (v - 1).toNat = v.toNat - 1 := by bv_omega
  rw [BitVec.toNat_and, hpred] at hand
  obtain ⟨k, hk⟩ := (Nat.and_sub_one_eq_zero_iff_isPowerOfTwo (by omega)).mp hand
  refine ⟨k, ?_, by rw [hnat, hk, Nat.cast_pow]; rfl⟩
  have hlt := (fits_toInt v).2
  rw [hnat, hk, Nat.cast_pow, Nat.cast_ofNat] at hlt
  exact (pow_lt_pow_iff_right₀ (by decide : (1 : ℤ) < 2)).mp hlt

/-- A shift stands for a power of two. -/
theorem exists_of_shiftOf {shift : BitVec 32} (h : shiftOf r = some shift) :
    ∃ v k, r = .int v ∧ 1 < v.toInt ∧ isPowerOfTwo v = true ∧ v.toInt = 2 ^ k ∧
      (shift.signExtend 64).toNat % 64 = k := by
  cases r with
  | int v =>
    rw [shiftOf] at h
    split_ifs at h with hv
    cases h
    obtain ⟨k, hk, hpow⟩ := exists_two_pow (by omega) hv.2
    refine ⟨v, k, rfl, hv.1, hv.2, hpow, ?_⟩
    have hlog : log2Int v = BitVec.ofNat 32 k := by
      rw [log2Int, hpow, show ((2 : ℤ) ^ k).toNat = 2 ^ k from Int.toNat_natCast (2 ^ k),
        log2Loop_two_pow, Nat.zero_add]
    have hnat : (BitVec.ofNat 32 k).toNat = k := Nat.mod_eq_of_lt (by omega)
    have hint : (BitVec.ofNat 32 k).toInt = k := by
      rw [BitVec.toInt_eq_toNat_of_lt (by omega), hnat]
    rw [toNat_mod_64, hlog, count, hint]
    omega
  | _ => cases h

theorem sameValue_of_value (hop : op ≠ .pow) {rv' : RValue F R}
    (hw : ∀ dest m, value env dest m rv' = w)
    (h : binopValue (cgLoadOperand env l) (cgLoadOperand env r) op = w) :
    SameValue env (.binop op (some l) (some r)) rv' :=
  (sameValue_iff (fun dest m => value_binop hop env dest m l r) hw).mpr h.symm

theorem mul_eq_shiftLeft (w : BitVec 64) {k : ℕ} (hv : v.toInt = 2 ^ k) :
    w * v.signExtend 64 = w <<< k := by
  rw [← BitVec.toInt_inj, BitVec.toInt_mul, toInt_shiftLeft, toInt_signExtend, hv]

theorem value_shiftBy {op : BinOp} (hop : op ≠ .pow) (operand : Operand F) (shift : BitVec 32)
    (dest : Reg) (m : Machine) : value env dest m (shiftBy op operand shift : RValue F R) =
      binopValue (cgLoadOperand env operand) (shift.signExtend 64) op :=
  value_binop hop env dest m operand (.int shift)

/-- A neutral constant on the right. -/
theorem sameValue_use_left (hop : op ≠ .pow) (hr : isConst r n = true)
    (h : ∀ x, binopValue x (n.signExtend 64) op = some x) :
    SameValue env (.binop op (some l) (some r) : RValue F R) (.use l) := by
  rw [eq_int_of_isConst hr]
  exact sameValue_of_value hop (fun dest m => value_use env dest m l) (h _)

/-- A neutral constant on the left. -/
theorem sameValue_use_right (hop : op ≠ .pow) (hl : isConst l n = true)
    (h : ∀ x, binopValue (n.signExtend 64) x op = some x) :
    SameValue env (.binop op (some l) (some r) : RValue F R) (.use r) := by
  rw [eq_int_of_isConst hl]
  exact sameValue_of_value hop (fun dest m => value_use env dest m r) (h _)

/-- An absorbing constant on the right. -/
theorem sameValue_const_left (hop : op ≠ .pow) (hr : isConst r n = true)
    (h : ∀ x, binopValue x (n.signExtend 64) op = some (n.signExtend 64)) :
    SameValue env (.binop op (some l) (some r) : RValue F R) (.constInt n) := by
  rw [eq_int_of_isConst hr]
  exact sameValue_of_value hop (fun dest m => value_constInt env dest m n) (h _)

/-- An absorbing constant on the left. -/
theorem sameValue_const_right (hop : op ≠ .pow) (hl : isConst l n = true)
    (h : ∀ x, binopValue (n.signExtend 64) x op = some (n.signExtend 64)) :
    SameValue env (.binop op (some l) (some r) : RValue F R) (.constInt n) := by
  rw [eq_int_of_isConst hl]
  exact sameValue_of_value hop (fun dest m => value_constInt env dest m n) (h _)

theorem sameValue_mul {rv' : RValue F R} (h : reduceBinop .mul l r = some rv') :
    SameValue env (.binop .mul (some l) (some r)) rv' := by
  have hop : BinOp.mul ≠ .pow := by decide
  rw [reduceBinop] at h
  split_ifs at h with hr hl hr hl
  · cases h
    exact sameValue_const_left hop hr fun x => congrArg some BitVec.mul_zero
  · cases h
    exact sameValue_const_right hop hl fun x => congrArg some BitVec.zero_mul
  · cases h
    exact sameValue_use_left hop hr fun x => congrArg some (BitVec.mul_one x)
  · cases h
    exact sameValue_use_right hop hl fun x => congrArg some (BitVec.one_mul x)
  · rw [Option.or_eq_some_iff, Option.map_eq_some_iff, Option.map_eq_some_iff] at h
    rcases h with ⟨shift, hshift, rfl⟩ | ⟨-, shift, hshift, rfl⟩
    · obtain ⟨v, k, rfl, -, -, hv, hk⟩ := exists_of_shiftOf hshift
      refine sameValue_of_value hop (value_shiftBy (by decide) l shift) (congrArg some ?_)
      rw [hk]
      exact mul_eq_shiftLeft _ hv
    · obtain ⟨v, k, rfl, -, -, hv, hk⟩ := exists_of_shiftOf hshift
      refine sameValue_of_value hop (value_shiftBy (by decide) r shift) (congrArg some ?_)
      rw [hk, BitVec.mul_comm]
      exact mul_eq_shiftLeft _ hv

/-- All reductions but those of a division and of a power preserve the value. -/
theorem sameValue_reduceBinop (hop : op ≠ .pow) (hop' : op ≠ .div) {rv' : RValue F R}
    (h : reduceBinop op l r = some rv') : SameValue env (.binop op (some l) (some r)) rv' := by
  cases op with
  | mul => exact sameValue_mul h
  | div => exact absurd rfl hop'
  | pow => exact absurd rfl hop
  | add =>
    rw [reduceBinop] at h
    split_ifs at h with hr hl
    · cases h
      exact sameValue_use_left hop hr fun x => congrArg some (BitVec.add_zero x)
    · cases h
      exact sameValue_use_right hop hl fun x => congrArg some (BitVec.zero_add x)
  | sub =>
    rw [reduceBinop] at h
    split_ifs at h with hr
    cases h
    exact sameValue_use_left hop hr fun x => congrArg some (BitVec.sub_zero x)
  | bitAnd =>
    rw [reduceBinop] at h
    split_ifs at h with hr hl
    · cases h
      exact sameValue_const_left hop hr fun x => congrArg some BitVec.and_zero
    · cases h
      exact sameValue_const_right hop hl fun x => congrArg some BitVec.zero_and
  | bitOr =>
    rw [reduceBinop] at h
    split_ifs at h with hr hl
    · cases h
      exact sameValue_use_left hop hr fun x => congrArg some BitVec.or_zero
    · cases h
      exact sameValue_use_right hop hl fun x => congrArg some BitVec.zero_or
  | bitXor =>
    rw [reduceBinop] at h
    split_ifs at h with hr hl
    · cases h
      exact sameValue_use_left hop hr fun x => congrArg some BitVec.xor_zero
    · cases h
      exact sameValue_use_right hop hl fun x => congrArg some BitVec.zero_xor
  | shl =>
    rw [reduceBinop] at h
    split_ifs at h with hr
    cases h
    exact sameValue_use_left hop hr fun x => congrArg some (BitVec.shiftLeft_zero x)
  | shr =>
    rw [reduceBinop] at h
    split_ifs at h with hr
    cases h
    exact sameValue_use_left hop hr fun x => congrArg some BitVec.sshiftRight_zero
  | _ => cases h

/-- The quotient by a positive number. -/
theorem binopValue_div {w : BitVec 64} (hv : 0 < v.toInt) :
    ∃ q : BitVec 64, binopValue w (v.signExtend 64) .div = some q ∧
      q.toInt = w.toInt.tdiv v.toInt := by
  have hfault : ¬DivFaults w (v.signExtend 64) := by
    rw [DivFaults, toInt_signExtend]
    omega
  refine ⟨_, if_neg hfault, ?_⟩
  have hle := natAbs_tdiv_le w.toInt v.toInt
  have hmin := (quotient_fits_iff w.le_toInt w.toInt_lt hv.ne').not
  rw [toInt_signExtend, BitVec.toInt_ofInt]
  exact Int.bmod_eq_of_le_mul_two (by omega) (by omega)

theorem sameValue_div_one (hr : isConst r 1 = true) :
    SameValue env (.binop .div (some l) (some r) : RValue F R) (.use l) := by
  refine sameValue_use_left (by decide) hr fun x => ?_
  obtain ⟨q, hq, hint⟩ := binopValue_div (w := x) (v := 1) (by decide)
  rw [hq, Option.some_inj, ← BitVec.toInt_inj, hint]
  exact Int.tdiv_one _

theorem sameValue_div_shift_iff {shift : BitVec 32} (h : shiftOf r = some shift) :
    SameValue env (.binop .div (some l) (some r) : RValue F R) (shiftBy .shr l shift) ↔
      ReduceExact env (.binop .div (some l) (some r) : RValue F R) := by
  obtain ⟨v, k, rfl, hone, hpow, hv, hk⟩ := exists_of_shiftOf h
  obtain ⟨q, hq, hint⟩ := binopValue_div (w := cgLoadOperand env l) (v := v) (by omega)
  have hiff := tdiv_eq_shift_iff (cgLoadOperand env l).toInt k
  rw [sameValue_iff (fun dest m => value_binop (by decide) env dest m l (.int v))
    (value_shiftBy (by decide) l shift), cgLoadOperand, hq, binopValue, hk, Option.some_inj,
    ← BitVec.toInt_inj, toInt_sshiftRight, hint, hv, eq_comm, hiff, ReduceExact, hv]
  exact ⟨fun h _ _ => h, fun h => h (hv ▸ hone) hpow⟩

theorem sameValue_div_iff (env : Env R) (l r : Operand F) :
    (∀ rv', reduceBinop .div l r = some rv' →
      SameValue env (.binop .div (some l) (some r)) rv') ↔
      ReduceExact env (.binop .div (some l) (some r) : RValue F R) := by
  rw [reduceBinop]
  split_ifs with hr
  · rw [forall_some_iff]
    refine iff_of_true (sameValue_div_one hr) ?_
    rw [eq_int_of_isConst hr]
    exact fun h => absurd h (by decide)
  · cases hshift : shiftOf r with
    | some shift => rw [Option.map_some, forall_some_iff, sameValue_div_shift_iff hshift]
    | none =>
      refine iff_of_true (fun _ h => by cases h) ?_
      cases r with
      | int v =>
        intro hone hpow
        rw [shiftOf, if_pos ⟨hone, hpow⟩] at hshift
        cases hshift
      | _ => exact trivial

/-- No power is left as it was. -/
theorem sameValue_pow_iff (env : Env R) (l r : Operand F) :
    (∀ rv', reduceBinop .pow l r = some rv' →
      SameValue env (.binop .pow (some l) (some r)) rv') ↔
      ReduceExact env (.binop .pow (some l) (some r) : RValue F R) := by
  rw [reduceBinop]
  split_ifs with h0 h1 h2
  · rw [forall_some_iff]
    refine iff_of_false (not_sameValue_pow fun dest m => value_constInt env dest m 1) ?_
    rw [eq_int_of_isConst h0]
    exact fun h => h.1 rfl
  · rw [forall_some_iff]
    refine iff_of_false (not_sameValue_pow fun dest m => value_use env dest m l) ?_
    rw [eq_int_of_isConst h1]
    exact fun h => h.2.1 rfl
  · rw [forall_some_iff]
    refine iff_of_false (not_sameValue_pow fun dest m =>
      value_binop (by decide) env dest m l l) ?_
    rw [eq_int_of_isConst h2]
    exact fun h => h.2.2 rfl
  · refine iff_of_true (fun _ h => by cases h) ?_
    cases r with
    | int v =>
      exact ⟨fun h => h0 (decide_eq_true h), fun h => h1 (decide_eq_true h),
        fun h => h2 (decide_eq_true h)⟩
    | _ => exact trivial

/-- A reduction preserves the value if and only if the dividend allows it. -/
theorem sameValue_reduce_iff (env : Env R) (rv : RValue F R) :
    (∀ rv', tryStrengthReduce rv = some rv' → SameValue env rv rv') ↔ ReduceExact env rv := by
  cases rv with
  | binop op left right =>
    rcases left with _ | l
    · exact iff_of_true (fun _ h => by cases h) (by cases op <;> trivial)
    rcases right with _ | r
    · exact iff_of_true (fun _ h => by cases h) (by cases op <;> trivial)
    by_cases hpow : op = .pow
    · subst hpow
      exact sameValue_pow_iff env l r
    by_cases hdiv : op = .div
    · subst hdiv
      exact sameValue_div_iff env l r
    refine iff_of_true (fun rv' h => sameValue_reduceBinop hpow hdiv h) ?_
    cases op with
    | div => exact absurd rfl hdiv
    | pow => exact absurd rfl hpow
    | _ => exact trivial
  | _ => exact iff_of_true (fun _ h => by cases h) trivial

/-! ## Both passes -/

/-- What a pass does to an instruction. -/
inductive SameInstruction (env : Env R) : Instruction F R I → Instruction F R I → Prop
  | refl (inst : Instruction F R I) : SameInstruction env inst inst
  | assign (dest : ℤ) {rv rv' : RValue F R} (h : SameValue env rv rv') :
      SameInstruction env (.assign dest (some rv)) (.assign dest (some rv'))

/-- The instructions have the same values, and the code of the terminators jumps to the same
block. -/
structure SameBlock (env : Env R) (block block' : BasicBlock F R I) : Prop where
  id : block'.id = block.id
  instructions : List.Forall₂ (SameInstruction env) block.instructions block'.instructions
  jumps : ∀ m, block'.terminator.map (nextBlock env m) = block.terminator.map (nextBlock env m)

def SameFunction (env : Env R) (func func' : MirFunction F R I) : Prop :=
  List.Forall₂ (SameBlock env) func.blocks func'.blocks

theorem sameInstruction_assign_iff {dest : ℤ} {rv rv' : RValue F R} :
    SameInstruction (I := I) env (.assign dest (some rv)) (.assign dest (some rv')) ↔
      SameValue env rv rv' := by
  constructor
  · intro h
    cases h with
    | refl => exact SameValue.refl rv
    | assign _ h => exact h
  · exact .assign dest

theorem nextBlock_foldTerminator (env : Env R) (m : Machine) (term : Terminator F) :
    nextBlock env m (foldTerminator term) = nextBlock env m term := by
  cases term with
  | branch cond thenBlock elseBlock =>
    rcases cond with _ | (_ | _ | _ | b | _ | _)
    case some.bool =>
      rw [foldTerminator, nextBlock, nextBlock, Option.map_some, Flags.holds, zero_testFlags_self]
      cases b <;> rfl
    all_goals rfl
  | _ => rfl

/-- All right sides of a list of instructions. -/
def AllAssigned (E : RValue F R → Prop) (inst : Instruction F R I) : Prop :=
  match inst with
  | .assign _ (some rv) => E rv
  | _ => True

theorem forall_rvalues_iff {func : MirFunction F R I} {E : RValue F R → Prop} :
    (∀ rv ∈ func.rvalues, E rv) ↔
      ∀ block ∈ func.blocks, ∀ inst ∈ block.instructions, AllAssigned E inst := by
  rw [MirFunction.rvalues, List.forall_mem_flatMap]
  refine forall₂_congr fun block _ => ?_
  rw [List.forall_mem_filterMap]
  refine forall₂_congr fun inst _ => ?_
  rcases inst with ⟨dest, _ | rv⟩ | i
  · exact iff_of_true (fun _ h => by cases h) trivial
  · exact forall_some_iff
  · exact iff_of_true (fun _ h => by cases h) trivial

theorem sameInstruction_fold_iff {inst inst' : Instruction F R I}
    (h : foldInstruction fl inst = .ok inst') :
    SameInstruction env inst inst' ↔ AllAssigned (FoldExact fl) inst := by
  rcases inst with ⟨dest, _ | rv⟩ | i
  · cases h
    exact iff_of_true (.refl _) trivial
  · rw [AllAssigned, ← sameValue_fold_iff env fl rv]
    cases hfold : tryFold fl rv with
    | error e => rw [foldInstruction, hfold] at h; cases h
    | ok folded =>
      rw [foldInstruction, hfold] at h
      cases h
      rw [sameInstruction_assign_iff]
      cases folded with
      | none => exact iff_of_true (SameValue.refl rv) fun _ h => by cases h
      | some rv' => exact ⟨fun h _ hrv => by cases hrv; exact h, fun h => h rv' rfl⟩
  · cases h
    exact iff_of_true (.refl _) trivial

theorem sameInstruction_reduce_iff (inst : Instruction F R I) :
    SameInstruction env inst (reduceInstruction inst) ↔ AllAssigned (ReduceExact env) inst := by
  rcases inst with ⟨dest, _ | rv⟩ | i
  · exact iff_of_true (.refl _) trivial
  · rw [AllAssigned, ← sameValue_reduce_iff env rv, reduceInstruction, sameInstruction_assign_iff]
    cases tryStrengthReduce rv with
    | none => exact iff_of_true (SameValue.refl rv) fun _ h => by cases h
    | some rv' => exact forall_some_iff.symm
  · exact iff_of_true (.refl _) trivial

theorem sameBlock_fold_iff {block block' : BasicBlock F R I}
    (h : foldInstructions fl block = .ok block') :
    SameBlock env block (foldBranch block') ↔
      ∀ inst ∈ block.instructions, AllAssigned (FoldExact fl) inst := by
  rw [foldInstructions] at h
  cases hmap : block.instructions.mapM (foldInstruction fl) with
  | error e => rw [hmap] at h; cases h
  | ok instructions =>
    rw [hmap] at h
    cases h
    have hiff : List.Forall₂ (SameInstruction env) block.instructions instructions ↔
        ∀ inst ∈ block.instructions, AllAssigned (FoldExact fl) inst :=
      ListRel.iff_left (List.mapM_eq_ok.mp hmap) fun _ _ h => sameInstruction_fold_iff h
    rw [← hiff]
    refine ⟨SameBlock.instructions, fun h => ⟨rfl, h, fun m => ?_⟩⟩
    rw [foldBranch, Option.map_map]
    exact congrArg (fun f => block.terminator.map f) (funext (nextBlock_foldTerminator env m))

theorem sameFunction_fold_iff {func folded : MirFunction F R I}
    (h : optConstantFold fl func = .ok folded) :
    SameFunction env func folded ↔ ∀ rv ∈ func.rvalues, FoldExact fl rv := by
  rw [optConstantFold] at h
  cases hmap : func.blocks.mapM (foldInstructions fl) with
  | error e => rw [hmap] at h; cases h
  | ok blocks =>
    rw [hmap] at h
    cases h
    rw [forall_rvalues_iff, SameFunction, List.forall₂_map_right_iff]
    exact ListRel.iff_left (List.mapM_eq_ok.mp hmap) fun _ _ h => sameBlock_fold_iff h

theorem sameFunction_reduce_iff (env : Env R) (func : MirFunction F R I) :
    SameFunction env func (optStrengthReduce func) ↔ ∀ rv ∈ func.rvalues, ReduceExact env rv := by
  rw [forall_rvalues_iff, SameFunction, optStrengthReduce, List.forall₂_map_right_iff,
    List.forall₂_same]
  refine forall₂_congr fun block _ => ?_
  have hiff : List.Forall₂ (SameInstruction env) block.instructions
      (block.instructions.map reduceInstruction) ↔
      ∀ inst ∈ block.instructions, AllAssigned (ReduceExact env) inst := by
    rw [List.forall₂_map_right_iff, List.forall₂_same]
    exact forall₂_congr fun inst _ => sameInstruction_reduce_iff inst
  rw [← hiff]
  exact ⟨SameBlock.instructions, fun h => ⟨rfl, h, fun _ => rfl⟩⟩

/-- Both passes preserve all values and jumps of a function if and only if its right-hand sides
allow it. -/
theorem passes_preserve_iff (fl : Floats F) (env : Env R) {func folded : MirFunction F R I}
    (h : optConstantFold fl func = .ok folded) :
    SameFunction env func folded ∧ SameFunction env func (optStrengthReduce func) ↔
      ∀ rv ∈ func.rvalues, FoldExact fl rv ∧ ReduceExact env rv := by
  rw [sameFunction_fold_iff h, sameFunction_reduce_iff, ← forall₂_and]

/-- Half of a local. -/
def halveLocal : MirFunction Unit Empty Empty :=
  ⟨[⟨0, [.assign 1 (some (.binop .div (some (.loc 0)) (some (.int 2))))], some (.ret none)⟩]⟩

def unitFloats : Floats Unit :=
  ⟨(), (), fun _ _ => (), fun _ _ => (), fun _ _ => (), fun _ _ => (), fun _ _ => (),
    fun _ _ => true, fun _ _ => false, fun _ _ => true⟩

/-- All locals hold `v`. -/
def constEnv (v : BitVec 64) : Env Empty := ⟨fun _ => v, fun _ => 0, Empty.elim⟩

/-- Half of seven is three, also for a shift. -/
theorem passes_preserve_halveLocal :
    SameFunction (constEnv 7) halveLocal halveLocal ∧
      SameFunction (constEnv 7) halveLocal (optStrengthReduce halveLocal) := by
  refine (passes_preserve_iff unitFloats (constEnv 7) rfl).mpr ?_
  rintro rv (_ | ⟨_, _ | _⟩)
  exact ⟨trivial, fun _ _ => Or.inl (by decide)⟩

/-- Half of minus one is zero, and minus one for a shift. -/
theorem not_sameFunction_halveLocal :
    optConstantFold unitFloats halveLocal = .ok halveLocal ∧
      ¬SameFunction (constEnv (-1)) halveLocal (optStrengthReduce halveLocal) := by
  refine ⟨rfl, fun h => ?_⟩
  have hexact := (sameFunction_reduce_iff (constEnv (-1)) halveLocal).mp h _ (List.mem_cons_self ..)
  exact absurd (hexact (by decide) (by decide)) (by decide)

end Kryos.SelfHost
