import Kryos.Lib.Interleaving
import Kryos.Lib.ListRel
import Mathlib.Algebra.Order.Ring.Int
import Mathlib.Data.List.Nodup
import Mathlib.Tactic.SplitIfs

/-!
# Budget frames

`@budget(tokens = N, calls = M, usd = D)` pushes a frame on entry to a function and pops back to the
depth of that entry on return. Every charge is taken from all active frames. A frame keeps three
64-bit counters of what is left, and a negative limit, which means *unlimited*, is stored as the
largest word.

Next to the frames a state keeps an account of each: the limits as they were passed and the
integer sums of what was charged while the frame was active. The counters are subtracted with
wrap-around, as the release build compiles them.

## Main results

* `Budget.budgets_are_exact` — in runs whose totals stay in range, the counters agree with the
  accounts, refusals and reports are exactly those the limits call for, and a frame once exceeded
  stays exceeded
* `Budget.wrapped_counter_restores` — two large charges bring an exhausted budget back
-/

namespace Kryos.Runtime.Budget

/-! ## The frame stack -/

structure Frame where
  tokensLeft : BitVec 64
  callsLeft : BitVec 64
  /-- in micro-dollars -/
  usdMicrosLeft : BitVec 64
deriving DecidableEq

/-- `i64::MAX` -/
def maxWord : BitVec 64 := 0x7fffffffffffffff

/-- `x.max(0)` -/
def maxZero (x : BitVec 64) : BitVec 64 := if x.slt 0 then 0 else x

/-- What a frame stores for a limit. -/
def unlessNegative (limit : BitVec 64) : BitVec 64 := if limit.slt 0 then maxWord else limit

def kryosBudgetPushUsd (f : List Frame) (tokens calls usdMicros : BitVec 64) :
    List Frame × BitVec 64 :=
  (f ++ [⟨unlessNegative tokens, unlessNegative calls, unlessNegative usdMicros⟩],
    BitVec.ofNat 64 f.length)

def kryosBudgetPush (f : List Frame) (tokens calls : BitVec 64) : List Frame × BitVec 64 :=
  kryosBudgetPushUsd f tokens calls (-1)

def kryosBudgetPopTo (f : List Frame) (depth : BitVec 64) : List Frame :=
  let d := (maxZero depth).toNat
  if d < f.length then f.take d else f

def kryosBudgetTryCall (f : List Frame) : List Frame × BitVec 64 :=
  if f.any fun fr => fr.callsLeft.sle 0 then (f, 1)
  else (f.map fun fr => { fr with callsLeft := fr.callsLeft - 1 }, 0)

def kryosBudgetChargeTokens (f : List Frame) (tokens : BitVec 64) : List Frame × BitVec 64 :=
  let f' := f.map fun fr => { fr with tokensLeft := fr.tokensLeft - maxZero tokens }
  (f', if f'.any fun fr => fr.tokensLeft.slt 0 then 1 else 0)

def kryosBudgetChargeUsdMicros (f : List Frame) (amountMicros : BitVec 64) :
    List Frame × BitVec 64 :=
  let amount := maxZero amountMicros
  if f.any fun fr => fr.usdMicrosLeft.slt amount then (f, 1)
  else (f.map fun fr => { fr with usdMicrosLeft := fr.usdMicrosLeft - amount }, 0)

/-! ## Accounts -/

inductive Axis where
  | tokens
  | calls
  | usdMicros
deriving DecidableEq

def Frame.left (fr : Frame) : Axis → BitVec 64
  | .tokens => fr.tokensLeft
  | .calls => fr.callsLeft
  | .usdMicros => fr.usdMicrosLeft

/-- The books of one frame: its limits as they were passed, and the exact sums of what was charged
while it was active. The serial number tells it from every other frame of the run. -/
structure Account where
  serial : ℕ
  limit : Axis → ℤ
  charged : Axis → ℤ

namespace Account

def charge (ac : Account) (ax : Axis) (n : ℤ) : Account :=
  { ac with charged := Function.update ac.charged ax (ac.charged ax + n) }

/-- A negative limit is no limit. -/
def Limited (ac : Account) (ax : Axis) : Prop := 0 ≤ ac.limit ax

/-- Charging `n` would leave less than nothing. -/
def Overdrawn (ac : Account) (ax : Axis) (n : ℤ) : Prop :=
  ac.Limited ax ∧ ac.limit ax - (ac.charged ax + n) < 0

instance (ac : Account) (ax : Axis) : Decidable (ac.Limited ax) :=
  inferInstanceAs (Decidable (_ ≤ _))

instance (ac : Account) (ax : Axis) (n : ℤ) : Decidable (ac.Overdrawn ax n) :=
  inferInstanceAs (Decidable (_ ∧ _))

end Account

/-! ## Runs -/

structure State where
  frames : List Frame
  accounts : List Account
  /-- how many frames were ever pushed -/
  pushes : ℕ

inductive Call where
  | push (tokens calls : BitVec 64)
  | pushUsd (tokens calls usdMicros : BitVec 64)
  | popTo (depth : BitVec 64)
  | tryCall
  | chargeTokens (tokens : BitVec 64)
  | chargeUsdMicros (amountMicros : BitVec 64)

/-- What a call does to the frames and what it answers. `popTo` answers nothing. -/
def perform (f : List Frame) : Call → List Frame × BitVec 64
  | .push tokens calls => kryosBudgetPush f tokens calls
  | .pushUsd tokens calls usdMicros => kryosBudgetPushUsd f tokens calls usdMicros
  | .popTo depth => (kryosBudgetPopTo f depth, 0)
  | .tryCall => kryosBudgetTryCall f
  | .chargeTokens tokens => kryosBudgetChargeTokens f tokens
  | .chargeUsdMicros amountMicros => kryosBudgetChargeUsdMicros f amountMicros

/-- A new account for a frame with these limits. -/
def openAccount (serial : ℕ) (tokens calls usdMicros : BitVec 64) : Account where
  serial
  limit
    | .tokens => tokens.toInt
    | .calls => calls.toInt
    | .usdMicros => usdMicros.toInt
  charged _ := 0

/-- The books after a call that answered `answer`: a refused charge is not entered. -/
def enter (s : State) (answer : BitVec 64) : Call → List Account
  | .push tokens calls => s.accounts ++ [openAccount s.pushes tokens calls (-1)]
  | .pushUsd tokens calls usdMicros =>
    s.accounts ++ [openAccount s.pushes tokens calls usdMicros]
  | .popTo depth => s.accounts.take depth.toInt.toNat
  | .tryCall => if answer = 0 then s.accounts.map (·.charge .calls 1) else s.accounts
  | .chargeTokens tokens => s.accounts.map (·.charge .tokens (max tokens.toInt 0))
  | .chargeUsdMicros amountMicros =>
    if answer = 0 then s.accounts.map (·.charge .usdMicros (max amountMicros.toInt 0))
    else s.accounts

def Call.isPush : Call → Bool
  | .push _ _ => true
  | .pushUsd _ _ _ => true
  | _ => false

def step (s : State) (c : Call) : State where
  frames := (perform s.frames c).1
  accounts := enter s (perform s.frames c).2 c
  pushes := if c.isPush then s.pushes + 1 else s.pushes

/-- One thread's budget calls, in any order and with any arguments. -/
def budget : Protocol State Call where
  Init s := s = ⟨[], [], 0⟩
  step s c := some (step s c)

/-! ## The property -/

/-- What is left of a limited axis is the limit less what was charged. -/
def Accounted (s : State) : Prop :=
  List.Forall₂ (fun (fr : Frame) (ac : Account) =>
    ∀ ax, ac.Limited ax → (fr.left ax).toInt = ac.limit ax - ac.charged ax) s.frames s.accounts

/-- The answer of a call is the one the books call for, and a refusal changes nothing. -/
def Answers (s : State) : Call → Prop
  | .tryCall =>
    ((perform s.frames .tryCall).2 = 0 ↔ ∀ ac ∈ s.accounts, ¬ ac.Overdrawn .calls 1) ∧
      ((perform s.frames .tryCall).2 ≠ 0 → (perform s.frames .tryCall).1 = s.frames)
  | .chargeUsdMicros n =>
    ((perform s.frames (.chargeUsdMicros n)).2 = 0 ↔
        ∀ ac ∈ s.accounts, ¬ ac.Overdrawn .usdMicros (max n.toInt 0)) ∧
      ((perform s.frames (.chargeUsdMicros n)).2 ≠ 0 →
        (perform s.frames (.chargeUsdMicros n)).1 = s.frames)
  | .chargeTokens n =>
    (perform s.frames (.chargeTokens n)).2 = 1 ↔
      ∃ ac ∈ s.accounts, ac.Overdrawn .tokens (max n.toInt 0)
  | _ => True

/-- The frame's token counter says that it is exceeded. -/
def Frame.Exceeded (fr : Frame) : Prop := fr.tokensLeft.toInt < 0

/-- A frame exceeded in `s` and still active in `s'` is exceeded there. -/
def StaysExceeded (s s' : State) : Prop :=
  ∀ e ∈ s.frames.zip s.accounts, ∀ e' ∈ s'.frames.zip s'.accounts,
    e'.2.serial = e.2.serial → e.1.Exceeded → e'.1.Exceeded

/-- Charging `n` keeps the counter of `ax` in range: an unlimited axis is not charged past the
largest word in all, a limited one not past its limit by more than the smallest. -/
def Account.InRange (ac : Account) (ax : Axis) (n : ℤ) : Prop :=
  if ac.limit ax < 0 then ac.charged ax + n ≤ 2 ^ 63 - 1
  else ac.charged ax + n ≤ ac.limit ax + 2 ^ 63

instance (ac : Account) (ax : Axis) (n : ℤ) : Decidable (ac.InRange ax n) :=
  inferInstanceAs (Decidable (ite _ _ _))

/-- The totals after the call are in range for every frame, or a limit refuses it. -/
def Bounded (s : State) : Call → Prop
  | .tryCall =>
    (∃ ac ∈ s.accounts, ac.Overdrawn .calls 1) ∨ ∀ ac ∈ s.accounts, ac.InRange .calls 1
  | .chargeUsdMicros n =>
    (∃ ac ∈ s.accounts, ac.Overdrawn .usdMicros (max n.toInt 0)) ∨
      ∀ ac ∈ s.accounts, ac.InRange .usdMicros (max n.toInt 0)
  | .chargeTokens n => ∀ ac ∈ s.accounts, ac.InRange .tokens (max n.toInt 0)
  | _ => True

instance (s : State) : (c : Call) → Decidable (Bounded s c)
  | .tryCall => inferInstanceAs (Decidable (_ ∨ _))
  | .chargeUsdMicros _ => inferInstanceAs (Decidable (_ ∨ _))
  | .chargeTokens _ => inferInstanceAs (Decidable (∀ ac ∈ _, _))
  | .push _ _ => isTrue trivial
  | .pushUsd _ _ _ => isTrue trivial
  | .popTo _ => isTrue trivial

/-! ## Counters and books -/

theorem toInt_maxZero (x : BitVec 64) : (maxZero x).toInt = max x.toInt 0 := by
  rw [maxZero]
  split_ifs with h
  · have hneg : x.toInt < 0 := by simpa [BitVec.slt] using h
    rw [max_eq_right hneg.le]
    rfl
  · have hpos : 0 ≤ x.toInt := by simpa [BitVec.slt] using h
    rw [max_eq_left hpos]

theorem toInt_unlessNegative (x : BitVec 64) :
    (unlessNegative x).toInt = if x.toInt < 0 then 2 ^ 63 - 1 else x.toInt := by
  have hslt : x.slt 0 = true ↔ x.toInt < 0 := by simp [BitVec.slt]
  rw [unlessNegative]
  by_cases h : x.toInt < 0
  · rw [if_pos (hslt.mpr h), if_pos h]
    decide
  · rw [if_neg fun hs => h (hslt.mp hs), if_neg h]

theorem toInt_sub_of_le {x y : BitVec 64} (hy : 0 ≤ y.toInt) (h : -2 ^ 63 ≤ x.toInt - y.toInt) :
    (x - y).toInt = x.toInt - y.toInt := by
  have hx : x.toInt < 2 ^ 63 := BitVec.toInt_lt
  rw [BitVec.toInt_sub]
  exact Int.bmod_eq_of_le (by omega) (by omega)

namespace Account

/-- What the counter of an axis starts at. -/
def cap (ac : Account) (ax : Axis) : ℤ := if ac.limit ax < 0 then 2 ^ 63 - 1 else ac.limit ax

variable {ac : Account} {ax : Axis} {n : ℤ}

theorem cap_of_limited (h : ac.Limited ax) : ac.cap ax = ac.limit ax :=
  if_neg (not_lt.mpr h)

@[simp] theorem cap_charge (ac : Account) (ax ax' : Axis) (n : ℤ) :
    (ac.charge ax n).cap ax' = ac.cap ax' := rfl

@[simp] theorem serial_charge (ac : Account) (ax : Axis) (n : ℤ) :
    (ac.charge ax n).serial = ac.serial := rfl

@[simp] theorem limit_charge (ac : Account) (ax : Axis) (n : ℤ) :
    (ac.charge ax n).limit = ac.limit := rfl

@[simp] theorem charged_charge_self (ac : Account) (ax : Axis) (n : ℤ) :
    (ac.charge ax n).charged ax = ac.charged ax + n :=
  Function.update_self ..

theorem charged_charge_of_ne {ax' : Axis} (h : ax' ≠ ax) :
    (ac.charge ax n).charged ax' = ac.charged ax' :=
  Function.update_of_ne h ..

theorem charged_le_charge (hn : 0 ≤ n) (ax' : Axis) :
    ac.charged ax' ≤ (ac.charge ax n).charged ax' := by
  by_cases h : ax' = ax
  · subst h
    rw [charged_charge_self]
    omega
  · rw [charged_charge_of_ne h]

end Account

/-- The counters of a frame and its account agree on every axis. -/
def Agree (fr : Frame) (ac : Account) : Prop :=
  ∀ ax, (fr.left ax).toInt = ac.cap ax - ac.charged ax

/-- Take `n` from one counter of a frame. -/
def Frame.charge (fr : Frame) : Axis → BitVec 64 → Frame
  | .tokens, n => { fr with tokensLeft := fr.tokensLeft - n }
  | .calls, n => { fr with callsLeft := fr.callsLeft - n }
  | .usdMicros, n => { fr with usdMicrosLeft := fr.usdMicrosLeft - n }

theorem Frame.left_charge (fr : Frame) (ax ax' : Axis) (n : BitVec 64) :
    (fr.charge ax n).left ax' = if ax' = ax then fr.left ax - n else fr.left ax' := by
  cases ax <;> cases ax' <;> rfl

section Agreement

variable {fr : Frame} {ac : Account} {ax : Axis} {n : BitVec 64}

theorem Agree.charge (h : Agree fr ac) (hn : 0 ≤ n.toInt) (hr : ac.InRange ax n.toInt) :
    Agree (fr.charge ax n) (ac.charge ax n.toInt) := by
  have hax := h ax
  have hrange : -2 ^ 63 ≤ (fr.left ax).toInt - n.toInt := by
    rw [hax, Account.cap]
    rw [Account.InRange] at hr
    split_ifs at hr ⊢ <;> omega
  intro ax'
  rw [Frame.left_charge, Account.cap_charge]
  by_cases hx : ax' = ax
  · subst hx
    rw [if_pos rfl, toInt_sub_of_le hn hrange, hax, Account.charged_charge_self]
    omega
  · rw [if_neg hx, h ax', Account.charged_charge_of_ne hx]

/-- In range, the counter goes below zero exactly where the books are overdrawn. -/
theorem Agree.lt_iff_overdrawn (h : Agree fr ac) (hr : ac.InRange ax n.toInt) :
    (fr.left ax).toInt < n.toInt ↔ ac.Overdrawn ax n.toInt := by
  have hax := h ax
  rw [Account.cap] at hax
  rw [Account.InRange] at hr
  rw [Account.Overdrawn, Account.Limited]
  split_ifs at hax hr <;> omega

theorem Agree.charge_neg_iff (h : Agree fr ac) (hn : 0 ≤ n.toInt) (hr : ac.InRange ax n.toInt) :
    ((fr.charge ax n).left ax).toInt < 0 ↔ ac.Overdrawn ax n.toInt := by
  have hleft : ((fr.charge ax n).left ax).toInt = (fr.left ax).toInt - n.toInt := by
    rw [h.charge hn hr ax, h ax, Account.cap_charge, Account.charged_charge_self]
    omega
  rw [hleft, ← h.lt_iff_overdrawn hr]
  omega

/-- A frame with an overdrawn account refuses, whatever the range. -/
theorem Agree.lt_of_overdrawn (h : Agree fr ac) (ho : ac.Overdrawn ax n.toInt) :
    (fr.left ax).toInt < n.toInt := by
  have hax := h ax
  rw [Account.cap_of_limited ho.1] at hax
  have hneg := ho.2
  omega

theorem agree_openAccount (serial : ℕ) (tokens calls usdMicros : BitVec 64) :
    Agree ⟨unlessNegative tokens, unlessNegative calls, unlessNegative usdMicros⟩
      (openAccount serial tokens calls usdMicros) := by
  intro ax
  cases ax <;> simp [Frame.left, toInt_unlessNegative, Account.cap, openAccount] <;> rfl

end Agreement

/-! ## What a step preserves -/

/-- The invariant: counters and books agree, nothing negative was charged, and the accounts carry
serial numbers in the order of their pushes. -/
structure Inv (s : State) : Prop where
  agree : List.Forall₂ Agree s.frames s.accounts
  serial_lt : ∀ ac ∈ s.accounts, ac.serial < s.pushes
  serials : s.accounts.Pairwise (·.serial < ·.serial)

/-- The refusing charges, of which there are two. -/
def reserve (f : List Frame) (ax : Axis) (n : BitVec 64) : List Frame × BitVec 64 :=
  if f.any fun fr => (fr.left ax).slt n then (f, 1) else (f.map (·.charge ax n), 0)

theorem kryosBudgetTryCall_eq (f : List Frame) : kryosBudgetTryCall f = reserve f .calls 1 := by
  have hsle : (fun fr : Frame => fr.callsLeft.sle 0) = fun fr => (fr.left .calls).slt 1 := by
    funext fr
    show decide (fr.callsLeft.toInt ≤ 0) = decide (fr.callsLeft.toInt < 1)
    exact decide_eq_decide.mpr (by omega)
  rw [kryosBudgetTryCall, hsle]
  rfl

theorem kryosBudgetChargeUsdMicros_eq (f : List Frame) (n : BitVec 64) :
    kryosBudgetChargeUsdMicros f n = reserve f .usdMicros (maxZero n) := rfl

section Reserve

variable {f : List Frame} {accounts : List Account} {ax : Axis} {n : BitVec 64} {m : ℤ}

section

variable (h : List.Forall₂ Agree f accounts) (hm : n.toInt = m)

include h hm

theorem reserve_cases (hb : (∃ ac ∈ accounts, ac.Overdrawn ax m) ∨ ∀ ac ∈ accounts, ac.InRange ax m)
    :
    (∃ ac ∈ accounts, ac.Overdrawn ax m) ∧ reserve f ax n = (f, 1) ∨
      (∀ ac ∈ accounts, ¬ ac.Overdrawn ax m) ∧ (∀ ac ∈ accounts, ac.InRange ax m) ∧
        reserve f ax n = (f.map (·.charge ax n), 0) := by
  subst hm
  by_cases ho : ∃ ac ∈ accounts, ac.Overdrawn ax n.toInt
  · refine Or.inl ⟨ho, ?_⟩
    obtain ⟨ac, hac, hover⟩ := ho
    obtain ⟨fr, hfr, hagree⟩ := ListRel.exists_mem_left h hac
    rw [reserve, if_pos (List.any_eq_true.mpr ⟨fr, hfr, ?_⟩)]
    simpa [BitVec.slt] using hagree.lt_of_overdrawn hover
  · have hr := hb.resolve_left ho
    have hany : ¬ (f.any fun fr => (fr.left ax).slt n) = true := by
      rw [ListRel.any_iff h hr fun fr ac hagree hin => ?_]
      · exact ho
      · simpa [BitVec.slt] using hagree.lt_iff_overdrawn hin
    refine Or.inr ⟨fun ac hac hover => ho ⟨ac, hac, hover⟩, hr, ?_⟩
    rw [reserve, if_neg hany]

theorem forall₂_charge (hn : 0 ≤ m) (hr : ∀ ac ∈ accounts, ac.InRange ax m) :
    List.Forall₂ Agree (f.map (·.charge ax n)) (accounts.map (·.charge ax m)) := by
  subst hm
  exact ListRel.map_of_mem h hr fun _ _ hagree hin => hagree.charge hn hin

/-- A refusing charge and its books: both or neither are charged. -/
theorem forall₂_reserve (hn : 0 ≤ m)
    (hb : (∃ ac ∈ accounts, ac.Overdrawn ax m) ∨ ∀ ac ∈ accounts, ac.InRange ax m) :
    List.Forall₂ Agree (reserve f ax n).1
      (if (reserve f ax n).2 = 0 then accounts.map (·.charge ax m) else accounts) := by
  obtain ⟨_, hres⟩ | ⟨_, hr, hres⟩ := reserve_cases h hm hb
  · rw [hres, if_neg (show ¬ (1 : BitVec 64) = 0 by decide)]
    exact h
  · rw [hres, if_pos rfl]
    exact forall₂_charge h hm hn hr

theorem reserve_answers
    (hb : (∃ ac ∈ accounts, ac.Overdrawn ax m) ∨ ∀ ac ∈ accounts, ac.InRange ax m) :
    ((reserve f ax n).2 = 0 ↔ ∀ ac ∈ accounts, ¬ ac.Overdrawn ax m) ∧
      ((reserve f ax n).2 ≠ 0 → (reserve f ax n).1 = f) := by
  obtain ⟨⟨ac, hac, ho⟩, hres⟩ | ⟨hno, _, hres⟩ := reserve_cases h hm hb
  · rw [hres]
    exact ⟨iff_of_false (show ¬ (1 : BitVec 64) = 0 by decide) fun hall => hall ac hac ho,
      fun _ => rfl⟩
  · rw [hres]
    exact ⟨iff_of_true rfl hno, fun hne => absurd rfl hne⟩

end

end Reserve

theorem kryosBudgetPopTo_eq (f : List Frame) (depth : BitVec 64) :
    kryosBudgetPopTo f depth = f.take depth.toInt.toNat := by
  have hnat : (maxZero depth).toNat = depth.toInt.toNat := by
    have hint := toInt_maxZero depth
    have hlt : (maxZero depth).toInt < 2 ^ 63 := BitVec.toInt_lt
    have hnonneg : 0 ≤ (maxZero depth).toInt := by
      rw [hint]
      exact le_max_right ..
    rw [BitVec.toInt_eq_toNat_cond] at hint hnonneg
    split_ifs at hint hnonneg <;> omega
  rw [kryosBudgetPopTo, hnat]
  split_ifs with h
  · rfl
  · exact (List.take_of_length_le (not_lt.mp h)).symm

theorem forall₂_concat {f : List Frame} {accounts : List Account} {fr : Frame} {ac : Account}
    (h : List.Forall₂ Agree f accounts) (hlast : Agree fr ac) :
    List.Forall₂ Agree (f ++ [fr]) (accounts ++ [ac]) :=
  List.rel_append h (.cons hlast .nil)

variable {s : State}

theorem agree_step {c : Call} (h : List.Forall₂ Agree s.frames s.accounts) (hb : Bounded s c) :
    List.Forall₂ Agree (step s c).frames (step s c).accounts := by
  cases c with
  | push tokens calls | pushUsd tokens calls usdMicros =>
    exact forall₂_concat h (agree_openAccount _ _ _ _)
  | popTo depth =>
    show List.Forall₂ Agree (kryosBudgetPopTo s.frames depth) (s.accounts.take _)
    rw [kryosBudgetPopTo_eq]
    exact List.forall₂_take _ h
  | tryCall =>
    simp only [step, perform, enter, kryosBudgetTryCall_eq]
    exact forall₂_reserve h rfl (by decide) hb
  | chargeTokens tokens => exact forall₂_charge h (toInt_maxZero tokens) (le_max_right ..) hb
  | chargeUsdMicros amountMicros =>
    simp only [step, perform, enter, kryosBudgetChargeUsdMicros_eq]
    exact forall₂_reserve h (toInt_maxZero amountMicros) (le_max_right ..) hb

theorem answers_of_agree {c : Call} (h : List.Forall₂ Agree s.frames s.accounts) (hb : Bounded s c)
    : Answers s c := by
  cases c with
  | tryCall =>
    simp only [Answers, perform, kryosBudgetTryCall_eq]
    exact reserve_answers h rfl hb
  | chargeTokens tokens =>
    have hany : (s.frames.map (·.charge .tokens (maxZero tokens))).any
        (fun fr => fr.tokensLeft.slt 0) = true ↔
          ∃ ac ∈ s.accounts, ac.Overdrawn .tokens (max tokens.toInt 0) := by
      rw [List.any_map]
      refine ListRel.any_iff h hb fun fr ac hagree hin => ?_
      rw [← toInt_maxZero] at hin ⊢
      have hneg := hagree.charge_neg_iff (toInt_maxZero tokens ▸ le_max_right ..) hin
      simpa [BitVec.slt, Frame.left] using hneg
    show (if _ then (1 : BitVec 64) else 0) = 1 ↔ _
    rw [← hany]
    split_ifs with hx
    · exact iff_of_true rfl hx
    · exact iff_of_false (by decide) hx
  | chargeUsdMicros amountMicros =>
    simp only [Answers, perform, kryosBudgetChargeUsdMicros_eq]
    exact reserve_answers h (toInt_maxZero amountMicros) hb
  | push | pushUsd | popTo => trivial

/-! ## Frames through a run -/

/-- `ac'` is the account `ac` after further charges. -/
structure Account.Extends (ac' ac : Account) : Prop where
  serial : ac'.serial = ac.serial
  limit : ac'.limit = ac.limit
  charged : ∀ ax, ac.charged ax ≤ ac'.charged ax

theorem Account.Extends.refl (ac : Account) : ac.Extends ac := ⟨rfl, rfl, fun _ => le_rfl⟩

theorem Account.Extends.trans {a b c : Account} (hab : a.Extends b) (hbc : b.Extends c) :
    a.Extends c :=
  ⟨hab.serial.trans hbc.serial, hab.limit.trans hbc.limit,
    fun ax => (hbc.charged ax).trans (hab.charged ax)⟩

theorem Account.Extends.charge (ac : Account) (ax : Axis) {n : ℤ} (hn : 0 ≤ n) :
    (ac.charge ax n).Extends ac :=
  ⟨rfl, rfl, Account.charged_le_charge hn⟩

/-- Every account after a call was there before it, or is the one just opened. -/
theorem mem_enter {answer : BitVec 64} {c : Call} {ac' : Account} (h : ac' ∈ enter s answer c) :
    (∃ ac ∈ s.accounts, ac'.Extends ac) ∨ c.isPush = true ∧ ac'.serial = s.pushes := by
  have hkept (hm : ac' ∈ s.accounts) : ∃ ac ∈ s.accounts, ac'.Extends ac :=
    ⟨ac', hm, .refl ac'⟩
  have hcharged (ax : Axis) {n : ℤ} (hn : 0 ≤ n) (hm : ac' ∈ s.accounts.map (·.charge ax n)) :
      ∃ ac ∈ s.accounts, ac'.Extends ac := by
    obtain ⟨ac, hac, rfl⟩ := List.mem_map.mp hm
    exact ⟨ac, hac, .charge ac ax hn⟩
  cases c with
  | push | pushUsd =>
    obtain hm | hm := List.mem_append.mp h
    · exact Or.inl (hkept hm)
    · rw [List.mem_singleton.mp hm]
      exact Or.inr ⟨rfl, rfl⟩
  | popTo depth => exact Or.inl (hkept (List.mem_of_mem_take h))
  | tryCall =>
    rw [enter] at h
    split_ifs at h
    · exact Or.inl (hcharged .calls (by decide) h)
    · exact Or.inl (hkept h)
  | chargeTokens tokens => exact Or.inl (hcharged .tokens (le_max_right ..) h)
  | chargeUsdMicros amountMicros =>
    rw [enter] at h
    split_ifs at h
    · exact Or.inl (hcharged .usdMicros (le_max_right ..) h)
    · exact Or.inl (hkept h)

theorem pushes_le_step (s : State) (c : Call) : s.pushes ≤ (step s c).pushes := by
  show s.pushes ≤ if c.isPush then s.pushes + 1 else s.pushes
  split_ifs <;> omega

theorem pairwise_serial_enter {answer : BitVec 64} {c : Call} (h : Inv s) :
    (enter s answer c).Pairwise (·.serial < ·.serial) := by
  have hmap (ax : Axis) (n : ℤ) :
      (s.accounts.map (·.charge ax n)).Pairwise (·.serial < ·.serial) :=
    List.pairwise_map.mpr h.serials
  have hconcat (tokens calls usdMicros : BitVec 64) :
      (s.accounts ++ [openAccount s.pushes tokens calls usdMicros]).Pairwise
        (·.serial < ·.serial) := by
    refine List.pairwise_append.mpr ⟨h.serials, List.pairwise_singleton .., fun ac hac b hb => ?_⟩
    rw [List.mem_singleton.mp hb]
    exact h.serial_lt ac hac
  cases c with
  | push | pushUsd => exact hconcat ..
  | popTo depth => exact h.serials.sublist (List.take_sublist ..)
  | tryCall | chargeUsdMicros amountMicros =>
    rw [enter]
    split_ifs
    · exact hmap ..
    · exact h.serials
  | chargeTokens tokens => exact hmap ..

theorem Inv.step {s : State} {c : Call} (h : Inv s) (hb : Bounded s c) : Inv (step s c) where
  agree := agree_step h.agree hb
  serial_lt := by
    intro ac' hac'
    obtain ⟨ac, hac, hext⟩ | ⟨hpush, hserial⟩ := mem_enter hac'
    · rw [hext.serial]
      exact (h.serial_lt ac hac).trans_le (pushes_le_step s c)
    · show ac'.serial < if c.isPush then s.pushes + 1 else s.pushes
      rw [hserial, if_pos hpush]
      omega
  serials := pairwise_serial_enter h

theorem inv_of_reachable (hs : budget.ReachableWhen Bounded s) : Inv s := by
  refine hs.invariant (fun s₀ h₀ => ?_) fun t c t' ht hb hst => ?_
  · rw [show s₀ = ⟨[], [], 0⟩ from h₀]
    exact ⟨.nil, by simp, .nil⟩
  · obtain rfl : step t c = t' := by simpa [budget] using hst
    exact ht.step hb

/-- Every account active in `s'` and older than `s` extends one active in `s`. -/
def Continues (s s' : State) : Prop :=
  s.pushes ≤ s'.pushes ∧
    ∀ ac' ∈ s'.accounts, ac'.serial < s.pushes → ∃ ac ∈ s.accounts, ac'.Extends ac

theorem continues_of_run {s' : State} (hrun : budget.RunWhen Bounded s s') : Continues s s' := by
  refine hrun.invariant (fun t c t' ht _ hst => ?_)
    ⟨le_rfl, fun ac hac _ => ⟨ac, hac, .refl ac⟩⟩
  obtain rfl : step t c = t' := by simpa [budget] using hst
  refine ⟨ht.1.trans (pushes_le_step t c), fun ac'' hac'' hlt => ?_⟩
  obtain ⟨ac', hac', hext⟩ | ⟨-, hserial⟩ := mem_enter hac''
  · obtain ⟨ac, hac, hext'⟩ := ht.2 ac' hac' (hext.serial ▸ hlt)
    exact ⟨ac, hac, hext.trans hext'⟩
  · exact absurd hlt (by rw [hserial]; exact not_lt.mpr ht.1)

theorem Inv.accounted (h : Inv s) : Accounted s :=
  h.agree.imp fun _ _ hagree ax hl => by rw [hagree ax, Account.cap_of_limited hl]

theorem Inv.eq_of_serial (h : Inv s) {a b : Account} (ha : a ∈ s.accounts) (hb : b ∈ s.accounts)
    (hab : a.serial = b.serial) : a = b := by
  have hnodup : (s.accounts.map Account.serial).Nodup := List.pairwise_map.mpr (h.serials.imp ne_of_lt)
  exact List.inj_on_of_nodup_map hnodup ha hb hab

theorem Inv.staysExceeded {s' : State} (h : Inv s) (h' : Inv s') (hc : Continues s s') :
    StaysExceeded s s' := by
  rintro ⟨fr, ac⟩ he ⟨fr', ac'⟩ he' hserial hex
  have hac : ac ∈ s.accounts := (List.of_mem_zip he).2
  have hac' : ac' ∈ s'.accounts := (List.of_mem_zip he').2
  obtain ⟨old, hold, hext⟩ := hc.2 ac' hac' (hserial ▸ h.serial_lt ac hac)
  obtain rfl : old = ac := h.eq_of_serial hold hac (hext.serial.symm.trans hserial)
  have hagree : fr.tokensLeft.toInt = _ := List.forall₂_zip h.agree he .tokens
  have hagree' : fr'.tokensLeft.toInt = _ := List.forall₂_zip h'.agree he' .tokens
  have hcap : ac'.cap .tokens = old.cap .tokens := by rw [Account.cap, Account.cap, hext.limit]
  have hmono := hext.charged .tokens
  have hneg : fr.tokensLeft.toInt < 0 := hex
  show fr'.tokensLeft.toInt < 0
  omega

/-- **Budgets are exact while the totals stay in range.** -/
theorem budgets_are_exact {s : State} (hs : budget.ReachableWhen Bounded s) :
    Accounted s ∧ (∀ c, Bounded s c → Answers s c) ∧
      ∀ s', budget.RunWhen Bounded s s' → StaysExceeded s s' := by
  have hinv := inv_of_reachable hs
  exact ⟨hinv.accounted, fun c hb => answers_of_agree hinv.agree hb,
    fun s' hrun => hinv.staysExceeded (inv_of_reachable (hs.trans hrun)) (continues_of_run hrun)⟩

/-- Two calls reserved and the token limit passed, all in range. -/
def exceededRun : List Call :=
  [.pushUsd 100 2 50000, .tryCall, .chargeTokens 60, .tryCall, .chargeTokens 60]

def exceededState : State := exceededRun.foldl step ⟨[], [], 0⟩

theorem budgets_are_exact_when_exceeded :
    Accounted exceededState ∧ (∀ c, Bounded exceededState c → Answers exceededState c) ∧
      ∀ s', budget.RunWhen Bounded exceededState s' → StaysExceeded exceededState s' := by
  have hrun : budget.schedule ⟨[], [], 0⟩ exceededRun = some exceededState := rfl
  exact budgets_are_exact (Protocol.reachableWhen_of_schedule rfl hrun
    ⟨trivial, by decide, by decide, by decide, by decide, trivial⟩)

/-- A limit of no tokens, exceeded twice by the largest charge, has two tokens left. -/
theorem wrapped_counter_restores :
    ¬ ∀ s, budget.Reachable s →
      Accounted s ∧ (∀ c, Answers s c) ∧ ∀ s', budget.Run s s' → StaysExceeded s s' := by
  intro h
  let run : List Call := [.push 0 (-1), .chargeTokens maxWord]
  have hrun : budget.schedule ⟨[], [], 0⟩ run = some (run.foldl step ⟨[], [], 0⟩) := rfl
  have hanswer : (perform (run.foldl step ⟨[], [], 0⟩).frames (.chargeTokens maxWord)).2 = 1 ↔ _ :=
    (h _ (Protocol.reachable_of_schedule rfl hrun)).2.1 (.chargeTokens maxWord)
  have hover : ∃ ac ∈ (run.foldl step ⟨[], [], 0⟩).accounts,
      ac.Overdrawn .tokens (max maxWord.toInt 0) := by
    decide
  exact absurd (hanswer.mpr hover) (by decide)

end Kryos.Runtime.Budget
