import Kryos.Lib.ExactWord
import Mathlib.Data.List.Basic
import Mathlib.Tactic.LinearCombination
import Mathlib.Tactic.Ring

/-!
# The token bucket of the standard library

A bucket is refilled from the time that has passed since its baseline, and the baseline moves on by
the time that the added tokens took, so that the rest of it counts for the next refill. All of this
is in wrapping 64-bit arithmetic.

## Main results

* `refill_spec` — what a refill does to the tokens and to the baseline
* `rate_enforced` — over a whole run no more tokens are granted than the rate allows, as long as the
  time that the tokens took is a whole number of nanoseconds
-/

namespace Kryos.Stdlib.RateLimit

open ExactWord

/-- The state array. -/
structure Bucket where
  capacity : Int64
  tokens : Int64
  refillPerSec : Int64
  lastRefillNanos : Int64
  deriving DecidableEq, Repr

def newBucket (capacity refillPerSec nowNanos : Int64) : Bucket :=
  ⟨capacity, capacity, refillPerSec, nowNanos⟩

def refill (state : Bucket) (nowNanos : Int64) : Bucket :=
  let rate := state.refillPerSec
  if rate ≤ 0 then state
  else
    let elapsed := nowNanos - state.lastRefillNanos
    if elapsed ≤ 0 then state
    else
      let maxUsefulNs := 9223372036854775807 / rate
      let eff := if elapsed > maxUsefulNs then maxUsefulNs else elapsed
      let add := rate * eff / 1000000000
      let newTokens := state.tokens + add
      if newTokens ≥ state.capacity then
        { state with tokens := state.capacity, lastRefillNanos := nowNanos }
      else
        let consumedNs := add * 1000000000 / rate
        { state with
          tokens := newTokens
          lastRefillNanos := state.lastRefillNanos + consumedNs }

def tryAcquire (state : Bucket) (nowNanos : Int64) : Bool × Bucket :=
  let state := refill state nowNanos
  if state.tokens ≥ 1 then (true, { state with tokens := state.tokens - 1 })
  else (false, state)

/-- Calls at the given times, and which of them are granted. -/
def run (state : Bucket) : List Int64 → List Bool × Bucket
  | [] => ([], state)
  | now :: nows =>
    let (granted, state) := tryAcquire state now
    let (rest, state) := run state nows
    (granted :: rest, state)

/-! ## Exact refills -/

section Exact

variable (state : Bucket) (nowNanos : Int64)

/-- The time that counts: what `rate * eff` leaves room for. -/
def usefulNs : ℤ :=
  min (nowNanos.toInt - state.lastRefillNanos.toInt)
    (9223372036854775807 / state.refillPerSec.toInt)

def addedTokens : ℤ := state.refillPerSec.toInt * usefulNs state nowNanos / 1000000000

/-- No intermediate value of a refill leaves the 64 bits. -/
def NoOverflow : Prop :=
  Fits (nowNanos.toInt - state.lastRefillNanos.toInt) ∧
  (state.lastRefillNanos.toInt < nowNanos.toInt →
    Fits (state.refillPerSec.toInt * usefulNs state nowNanos) ∧
    Fits (state.tokens.toInt + addedTokens state nowNanos) ∧
    (state.tokens.toInt + addedTokens state nowNanos < state.capacity.toInt →
      Fits (addedTokens state nowNanos * 1000000000) ∧
      Fits (state.lastRefillNanos.toInt +
        addedTokens state nowNanos * 1000000000 / state.refillPerSec.toInt)))

/-- The refill adds up, and if it does not fill the bucket, the added tokens took a whole number of
nanoseconds. -/
def StepExact : Prop :=
  state.lastRefillNanos < nowNanos →
    state.tokens.toInt + addedTokens state nowNanos ≤ 9223372036854775807 ∧
    (state.tokens.toInt + addedTokens state nowNanos < state.capacity.toInt →
      state.refillPerSec.toInt ∣ addedTokens state nowNanos * 1000000000)

end Exact

/-- Every refill of a run is exact. -/
def RunExact (state : Bucket) : List Int64 → Prop
  | [] => True
  | now :: nows => StepExact state now ∧ RunExact (tryAcquire state now).2 nows

/-! ## One refill -/

variable {state : Bucket} {nowNanos : Int64}

/-- What a refill does: nothing, fill the bucket, or add tokens and move the baseline. -/
inductive Refilled (state : Bucket) (nowNanos : Int64) : Bucket → Prop
  | none (h : nowNanos.toInt ≤ state.lastRefillNanos.toInt) : Refilled state nowNanos state
  | full (h : state.lastRefillNanos.toInt < nowNanos.toInt)
      (hfull : state.capacity.toInt ≤ state.tokens.toInt + addedTokens state nowNanos) :
      Refilled state nowNanos
        { state with tokens := state.capacity, lastRefillNanos := nowNanos }
  | partly {tokens last : Int64} (h : state.lastRefillNanos.toInt < nowNanos.toInt)
      (hfull : state.tokens.toInt + addedTokens state nowNanos < state.capacity.toInt)
      (htokens : tokens.toInt = state.tokens.toInt + addedTokens state nowNanos)
      (hlast : last.toInt = state.lastRefillNanos.toInt +
        addedTokens state nowNanos * 1000000000 / state.refillPerSec.toInt) :
      Refilled state nowNanos { state with tokens := tokens, lastRefillNanos := last }

/-- The time that counts, in tokens. -/
theorem addedTokens_bounds (hrate : 0 < state.refillPerSec.toInt)
    (h : state.lastRefillNanos.toInt < nowNanos.toInt) :
    0 ≤ usefulNs state nowNanos ∧
      state.refillPerSec.toInt * usefulNs state nowNanos ≤ 9223372036854775807 ∧
      0 ≤ addedTokens state nowNanos ∧
      addedTokens state nowNanos * 1000000000 ≤
        state.refillPerSec.toInt * usefulNs state nowNanos := by
  have hquot := Int.ediv_nonneg (show (0 : ℤ) ≤ 9223372036854775807 by decide) hrate.le
  have huseful : 0 ≤ usefulNs state nowNanos := le_min (by omega) hquot
  have hprod : 0 ≤ state.refillPerSec.toInt * usefulNs state nowNanos :=
    mul_nonneg hrate.le huseful
  refine ⟨huseful, ?_, Int.ediv_nonneg hprod (by decide), Int.ediv_mul_le _ (by decide)⟩
  calc state.refillPerSec.toInt * usefulNs state nowNanos
      ≤ state.refillPerSec.toInt * (9223372036854775807 / state.refillPerSec.toInt) :=
        mul_le_mul_of_nonneg_left (min_le_right _ _) hrate.le
    _ ≤ 9223372036854775807 := Int.mul_ediv_self_le hrate.ne'

/-- The baseline never passes the time of the call. -/
theorem consumed_bounds (hrate : 0 < state.refillPerSec.toInt)
    (h : state.lastRefillNanos.toInt < nowNanos.toInt) :
    0 ≤ addedTokens state nowNanos * 1000000000 / state.refillPerSec.toInt ∧
      addedTokens state nowNanos * 1000000000 / state.refillPerSec.toInt ≤
        nowNanos.toInt - state.lastRefillNanos.toInt := by
  obtain ⟨-, -, hadded, hle⟩ := addedTokens_bounds hrate h
  refine ⟨Int.ediv_nonneg (by omega) hrate.le, ?_⟩
  calc addedTokens state nowNanos * 1000000000 / state.refillPerSec.toInt
      ≤ state.refillPerSec.toInt * usefulNs state nowNanos / state.refillPerSec.toInt :=
        Int.ediv_le_ediv hrate hle
    _ = usefulNs state nowNanos := Int.mul_ediv_cancel_left _ hrate.ne'
    _ ≤ nowNanos.toInt - state.lastRefillNanos.toInt := min_le_left _ _

theorem refill_spec (hrate : 0 < state.refillPerSec.toInt) (hlast : 0 ≤ state.lastRefillNanos.toInt)
    (hnow : 0 ≤ nowNanos.toInt) (htokens : 0 ≤ state.tokens.toInt)
    (hexact : StepExact state nowNanos) :
    NoOverflow state nowNanos ∧ Refilled state nowNanos (refill state nowNanos) := by
  have hnow' := nowNanos.toInt_lt
  have hlast' := state.lastRefillNanos.toInt_lt
  have helapsed : (nowNanos - state.lastRefillNanos).toInt =
      nowNanos.toInt - state.lastRefillNanos.toInt := sub rfl rfl ⟨by omega, by omega⟩
  have hpos : ¬state.refillPerSec ≤ 0 := by
    rw [Int64.le_iff_toInt_le, Int64.toInt_zero]
    omega
  rw [refill, if_neg hpos]
  by_cases h : nowNanos.toInt ≤ state.lastRefillNanos.toInt
  · have hzero : nowNanos - state.lastRefillNanos ≤ 0 := by
      rw [Int64.le_iff_toInt_le, helapsed, Int64.toInt_zero]
      omega
    rw [if_pos hzero]
    exact ⟨⟨⟨by omega, by omega⟩, fun h' => absurd h' (by omega)⟩, .none h⟩
  · have hlt : state.lastRefillNanos.toInt < nowNanos.toInt := by omega
    have hzero : ¬nowNanos - state.lastRefillNanos ≤ 0 := by
      rw [Int64.le_iff_toInt_le, helapsed, Int64.toInt_zero]
      omega
    obtain ⟨huseful, hfits, hadded, hle⟩ := addedTokens_bounds hrate hlt
    obtain ⟨hcons, hcons'⟩ := consumed_bounds hrate hlt
    have hprod := mul_nonneg hrate.le huseful
    have hPROD : Fits (state.refillPerSec.toInt * usefulNs state nowNanos) :=
      ⟨le_trans (by decide) hprod, lt_of_le_of_lt hfits (by decide)⟩
    obtain ⟨hsum, -⟩ := hexact (Int64.lt_iff_toInt_lt.mpr hlt)
    have hSUM : Fits (state.tokens.toInt + addedTokens state nowNanos) := ⟨by omega, by omega⟩
    have hTIME : Fits (addedTokens state nowNanos * 1000000000) := ⟨by omega, by omega⟩
    have hBASE : Fits (state.lastRefillNanos.toInt +
        addedTokens state nowNanos * 1000000000 / state.refillPerSec.toInt) :=
      ⟨by omega, by omega⟩
    -- the local variables of the function, in the order in which they are computed
    have hmax : (9223372036854775807 / state.refillPerSec).toInt =
        9223372036854775807 / state.refillPerSec.toInt := div rfl rfl (by decide) hrate
    obtain ⟨eff, heff⟩ : ∃ eff, (if nowNanos - state.lastRefillNanos >
        9223372036854775807 / state.refillPerSec then 9223372036854775807 / state.refillPerSec
        else nowNanos - state.lastRefillNanos) = eff := ⟨_, rfl⟩
    have hEFF : eff.toInt = usefulNs state nowNanos := by
      rw [← heff, usefulNs]
      split_ifs with hgt
      · rw [gt_iff_lt, Int64.lt_iff_toInt_lt, hmax, helapsed] at hgt
        rw [hmax, min_eq_right hgt.le]
      · rw [gt_iff_lt, Int64.lt_iff_toInt_lt, hmax, helapsed] at hgt
        rw [helapsed, min_eq_left (not_lt.mp hgt)]
    have hADD : (state.refillPerSec * eff / 1000000000).toInt = addedTokens state nowNanos :=
      div (mul rfl hEFF hPROD) rfl hprod (by decide)
    have hNEW : (state.tokens + state.refillPerSec * eff / 1000000000).toInt =
        state.tokens.toInt + addedTokens state nowNanos := add rfl hADD hSUM
    have hCONS : (state.refillPerSec * eff / 1000000000 * 1000000000 / state.refillPerSec).toInt =
        addedTokens state nowNanos * 1000000000 / state.refillPerSec.toInt :=
      div (mul hADD rfl hTIME) rfl (by omega) hrate
    refine ⟨⟨⟨by omega, by omega⟩, fun _ => ⟨hPROD, hSUM, fun _ => ⟨hTIME, hBASE⟩⟩⟩, ?_⟩
    rw [if_neg hzero]
    dsimp only
    rw [heff]
    split_ifs with hfull
    · rw [ge_iff_le, Int64.le_iff_toInt_le, hNEW] at hfull
      exact .full hlt hfull
    · rw [ge_iff_le, Int64.le_iff_toInt_le, hNEW] at hfull
      exact .partly hlt (not_le.mp hfull) hNEW (add rfl hCONS hBASE)

/-! ## Runs -/

/-- The tokens that are granted or in the bucket, beyond those that it started with, have been paid
for by the time up to the baseline. -/
structure Paced (capacity rate t₀ granted : ℤ) (state : Bucket) (t : ℤ) : Prop where
  capacity_eq : state.capacity.toInt = capacity
  rate_eq : state.refillPerSec.toInt = rate
  tokens_nonneg : 0 ≤ state.tokens.toInt
  tokens_le : state.tokens.toInt ≤ capacity
  baseline_ge : t₀ ≤ state.lastRefillNanos.toInt
  baseline_le : state.lastRefillNanos.toInt ≤ t
  pace : (granted + state.tokens.toInt - capacity) * 1000000000 ≤
    rate * (state.lastRefillNanos.toInt - t₀)

variable {capacity rate t₀ granted t : ℤ}

theorem Paced.refill (h : Paced capacity rate t₀ granted state t) (hrate : 0 < rate) (ht₀ : 0 ≤ t₀)
    (hle : t ≤ nowNanos.toInt) (hexact : StepExact state nowNanos) :
    NoOverflow state nowNanos ∧
      Paced capacity rate t₀ granted (refill state nowNanos) nowNanos.toInt := by
  obtain ⟨hcap, rfl, htok, htok', hbase, hbase', hpace⟩ := h
  obtain ⟨hno, hrefill⟩ := refill_spec hrate (by omega) (by omega) htok hexact
  refine ⟨hno, ?_⟩
  generalize RateLimit.refill state nowNanos = state' at hrefill ⊢
  cases hrefill with
  | none hlast => exact ⟨hcap, rfl, htok, htok', hbase, hbase'.trans hle, hpace⟩
  | full hlast hfull =>
    obtain ⟨-, -, -, hadded⟩ := addedTokens_bounds hrate hlast
    have hle' : state.refillPerSec.toInt * usefulNs state nowNanos ≤
        state.refillPerSec.toInt * (nowNanos.toInt - state.lastRefillNanos.toInt) :=
      mul_le_mul_of_nonneg_left (min_le_left _ _) hrate.le
    refine ⟨hcap, rfl, ?_, hcap.le, hbase.trans hlast.le, le_rfl, ?_⟩
    · show 0 ≤ state.capacity.toInt
      omega
    show (granted + state.capacity.toInt - capacity) * 1000000000 ≤
      state.refillPerSec.toInt * (nowNanos.toInt - t₀)
    have hsplit : state.refillPerSec.toInt * (nowNanos.toInt - t₀) =
        state.refillPerSec.toInt * (state.lastRefillNanos.toInt - t₀) +
          state.refillPerSec.toInt * (nowNanos.toInt - state.lastRefillNanos.toInt) := by ring
    rw [hsplit]
    omega
  | @partly tokens last hlast hfull htokens hlast' =>
    obtain ⟨-, -, hadded, -⟩ := addedTokens_bounds hrate hlast
    obtain ⟨hcons, hcons'⟩ := consumed_bounds hrate hlast
    obtain ⟨-, hdvd⟩ := hexact (Int64.lt_iff_toInt_lt.mpr hlast)
    refine ⟨hcap, rfl, ?_, ?_, ?_, ?_, ?_⟩
    · show 0 ≤ tokens.toInt
      omega
    · show tokens.toInt ≤ capacity
      omega
    · show t₀ ≤ last.toInt
      omega
    · show last.toInt ≤ nowNanos.toInt
      omega
    · show (granted + tokens.toInt - capacity) * 1000000000 ≤
        state.refillPerSec.toInt * (last.toInt - t₀)
      have hwhole := Int.mul_ediv_cancel' (hdvd hfull)
      have hsplit : state.refillPerSec.toInt * (last.toInt - t₀) =
          state.refillPerSec.toInt * (state.lastRefillNanos.toInt - t₀) +
            addedTokens state nowNanos * 1000000000 := by
        rw [hlast']
        linear_combination hwhole
      rw [hsplit, htokens]
      omega

/-- One call. -/
theorem Paced.tryAcquire (h : Paced capacity rate t₀ granted state t) (hrate : 0 < rate)
    (ht₀ : 0 ≤ t₀) (hle : t ≤ nowNanos.toInt) (hexact : StepExact state nowNanos) :
    NoOverflow state nowNanos ∧
      Paced capacity rate t₀ (granted + if (tryAcquire state nowNanos).1 then 1 else 0)
        (tryAcquire state nowNanos).2 nowNanos.toInt := by
  obtain ⟨hno, hrefill⟩ := h.refill hrate ht₀ hle hexact
  refine ⟨hno, ?_⟩
  by_cases htoken : (RateLimit.refill state nowNanos).tokens ≥ 1
  · have hrun : RateLimit.tryAcquire state nowNanos =
        (true, { RateLimit.refill state nowNanos with
          tokens := (RateLimit.refill state nowNanos).tokens - 1 }) := if_pos htoken
    obtain ⟨hcap, hrate', htok, htok', hbase, hbase', hpace⟩ := hrefill
    have hone : (1 : ℤ) ≤ (RateLimit.refill state nowNanos).tokens.toInt :=
      Int64.le_iff_toInt_le.mp htoken
    have htaken : ((RateLimit.refill state nowNanos).tokens - 1).toInt =
        (RateLimit.refill state nowNanos).tokens.toInt - 1 := by
      have hfits := (fits_toInt (RateLimit.refill state nowNanos).tokens).2
      exact sub rfl rfl ⟨by omega, by omega⟩
    rw [hrun]
    refine ⟨hcap, hrate', ?_, ?_, hbase, hbase', ?_⟩
    all_goals
      dsimp only
      rw [htaken]
    · omega
    · omega
    · rw [if_pos rfl, add_add_sub_cancel]
      exact hpace
  · have hrun : RateLimit.tryAcquire state nowNanos =
        (false, RateLimit.refill state nowNanos) := if_neg htoken
    rw [hrun, if_neg Bool.false_ne_true, add_zero]
    exact hrefill

variable {nows : List Int64}

theorem runExact_append (pre post : List Int64) (hexact : RunExact state (pre ++ post)) :
    RunExact state pre ∧ RunExact (run state pre).2 post := by
  induction pre generalizing state with
  | nil => exact ⟨trivial, hexact⟩
  | cons now pre ih =>
    obtain ⟨hstep, hrest⟩ := hexact
    obtain ⟨hpre, hpost⟩ := ih hrest
    exact ⟨⟨hstep, hpre⟩, hpost⟩

/-- Every call of a run. -/
theorem Paced.run {last : Int64} (h : Paced capacity rate t₀ granted state last.toInt)
    (hrate : 0 < rate) (ht₀ : 0 ≤ t₀) (hmono : (last :: nows).Pairwise (· ≤ ·))
    (hexact : RunExact state nows) :
    Paced capacity rate t₀ (granted + (run state nows).1.count true) (run state nows).2
      ((last :: nows).getLast (List.cons_ne_nil _ _)).toInt := by
  induction nows generalizing state last granted with
  | nil => simpa [RateLimit.run] using h
  | cons now nows ih =>
    obtain ⟨hle, hmono'⟩ := List.pairwise_cons.mp hmono
    obtain ⟨hstep, hrest⟩ := hexact
    have hnow := Int64.le_iff_toInt_le.mp (hle now List.mem_cons_self)
    have hone := ih (h.tryAcquire hrate ht₀ hnow hstep).2 hmono' hrest
    have hcount : (RateLimit.run state (now :: nows)).1.count true =
        (RateLimit.run (RateLimit.tryAcquire state now).2 nows).1.count true +
          if (RateLimit.tryAcquire state now).1 then 1 else 0 := by
      show (_ :: _).count true = _
      rw [List.count_cons]
      simp only [beq_true]
      rfl
    rw [List.getLast_cons (List.cons_ne_nil _ _), hcount]
    rw [Nat.cast_add, Nat.cast_ite, Nat.cast_one, Nat.cast_zero, ← add_assoc, add_right_comm]
    exact hone

theorem paced_newBucket {capacity : Int64} (rate t₀ : Int64) (hcap : 0 ≤ capacity) :
    Paced capacity.toInt rate.toInt t₀.toInt 0 (newBucket capacity rate t₀) t₀.toInt where
  capacity_eq := rfl
  rate_eq := rfl
  tokens_nonneg := Int64.le_iff_toInt_le.mp hcap
  tokens_le := le_rfl
  baseline_ge := le_rfl
  baseline_le := le_rfl
  pace := by simp [newBucket]

/-- The grants that the tokens and the baseline account for are within the rate. -/
theorem Paced.granted_le (h : Paced capacity rate t₀ granted state t) (hrate : 0 < rate) :
    granted ≤ capacity + rate * (t - t₀) / 1000000000 := by
  have hpace : (granted - capacity) * 1000000000 ≤ rate * (t - t₀) := by
    calc (granted - capacity) * 1000000000
        ≤ (granted + state.tokens.toInt - capacity) * 1000000000 := by
          have := h.tokens_nonneg
          omega
      _ ≤ rate * (state.lastRefillNanos.toInt - t₀) := h.pace
      _ ≤ rate * (t - t₀) :=
          mul_le_mul_of_nonneg_left (by have := h.baseline_le; omega) hrate.le
  have := (Int.le_ediv_iff_mul_le (by decide)).mpr hpace
  omega

/-- In a run whose refills are all exact, at every moment the tokens are within the bucket, no more
of them have been granted than the capacity and the rate allow, and the next call overflows
nowhere. -/
theorem rate_enforced {capacity rate t₀ : Int64} (hcap : 0 ≤ capacity) (hrate : 0 < rate)
    (ht₀ : 0 ≤ t₀) (hmono : (t₀ :: nows).Pairwise (· ≤ ·))
    (hexact : RunExact (newBucket capacity rate t₀) nows) (pre post : List Int64)
    (hnows : nows = pre ++ post) :
    (0 ≤ (run (newBucket capacity rate t₀) pre).2.tokens ∧
      (run (newBucket capacity rate t₀) pre).2.tokens ≤ capacity) ∧
    ((run (newBucket capacity rate t₀) pre).1.count true : ℤ) ≤
      capacity.toInt + rate.toInt *
        (((t₀ :: pre).getLast (List.cons_ne_nil _ _)).toInt - t₀.toInt) / 1000000000 ∧
    ∀ now ∈ post.head?, NoOverflow (run (newBucket capacity rate t₀) pre).2 now := by
  subst hnows
  have hrate' : 0 < rate.toInt := Int64.lt_iff_toInt_lt.mp hrate
  have ht₀' : 0 ≤ t₀.toInt := Int64.le_iff_toInt_le.mp ht₀
  obtain ⟨hpre, hpost⟩ := runExact_append pre post hexact
  have hsorted : (t₀ :: pre ++ post).Pairwise (· ≤ ·) := hmono
  obtain ⟨hmono', -, hlater⟩ := List.pairwise_append.mp hsorted
  have hpaced := (paced_newBucket rate t₀ hcap).run hrate' ht₀' hmono' hpre
  rw [zero_add] at hpaced
  refine ⟨⟨Int64.le_iff_toInt_le.mpr hpaced.tokens_nonneg,
    Int64.le_iff_toInt_le.mpr hpaced.tokens_le⟩, hpaced.granted_le hrate', fun now hnow => ?_⟩
  cases post with
  | nil => cases hnow
  | cons now' post =>
    cases hnow
    have hle := hlater _ (List.getLast_mem (List.cons_ne_nil t₀ pre)) now List.mem_cons_self
    exact (hpaced.refill hrate' ht₀' (Int64.le_iff_toInt_le.mp hle) hpost.1).1

theorem rate_enforced_perSecond :
    ((run (newBucket 3 1 0) [0, 0, 0, 0, 1000000000]).1.count true : ℤ) ≤
      (3 : Int64).toInt + (1 : Int64).toInt *
        (((0 : Int64) :: [0, 0, 0, 0, 1000000000]).getLast (List.cons_ne_nil _ _)).toInt /
          1000000000 := by
  have hexact : RunExact (newBucket 3 1 0) [0, 0, 0, 0, 1000000000] := by
    simp only [RunExact, StepExact]
    decide
  have := (rate_enforced (by decide) (by decide) (by decide) (by decide) hexact [0, 0, 0, 0, 1000000000] [] rfl).2.1
  simpa using this

/-- Three tokens a second take 333333333 nanoseconds each and a bit: what the code drops. -/
theorem exceeds_rate :
    (run (newBucket 2 3 0) [0, 0, 333333334, 666666667, 1000000000, 1333333333]).1.count true = 6 ∧
      (2 : ℤ) + 3 * (1333333333 - 0) / 1000000000 = 5 := by
  decide

end Kryos.Stdlib.RateLimit
