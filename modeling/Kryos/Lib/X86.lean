import Mathlib.Algebra.Order.Ring.Int
import Mathlib.Algebra.Order.Group.Nat
import Mathlib.Data.Option.Basic
import Mathlib.Logic.Function.Basic

/-!
# Register instructions of x86-64

The instructions that compute in the sixteen general registers, with 64 bit operands, and what they
do. Of the flags only those that a comparison leaves are followed: any other arithmetic leaves them
unknown, and a condition on unknown flags cannot be evaluated.

## Main results

* `X86.holds_cmpFlags` — the conditions behind a comparison compare
* `X86.run_cqo_idiv` — division truncates, and faults on zero and on overflow
* `X86.run_setcc_movzx` — a condition as a number
-/

namespace X86

abbrev Reg := Fin 16

def rax : Reg := 0
def rcx : Reg := 1
def rdx : Reg := 2
def rbx : Reg := 3
def rsp : Reg := 4
def rbp : Reg := 5
def rsi : Reg := 6
def rdi : Reg := 7
def r8 : Reg := 8
def r9 : Reg := 9
def r10 : Reg := 10
def r11 : Reg := 11
def r12 : Reg := 12
def r13 : Reg := 13
def r14 : Reg := 14
def r15 : Reg := 15

/-- The conditions of `SETcc` and `Jcc`, in the order of their codes. -/
inductive Cc where
  | o | no | b | ae | e | ne | be | a | s | ns | p | np | l | ge | le | g
  deriving DecidableEq, Repr

structure Flags where
  zero : Bool
  sign : Bool
  carry : Bool
  overflow : Bool
  parity : Bool
  deriving DecidableEq, Repr

def Flags.holds (f : Flags) : Cc → Bool
  | .o => f.overflow
  | .no => !f.overflow
  | .b => f.carry
  | .ae => !f.carry
  | .e => f.zero
  | .ne => !f.zero
  | .be => f.carry || f.zero
  | .a => !(f.carry || f.zero)
  | .s => f.sign
  | .ns => !f.sign
  | .p => f.parity
  | .np => !f.parity
  | .l => f.sign != f.overflow
  | .ge => f.sign == f.overflow
  | .le => f.zero || f.sign != f.overflow
  | .g => !f.zero && f.sign == f.overflow

/-- The low byte has an even number of ones. -/
def evenParity (v : BitVec 64) : Bool := (List.range 8).countP v.getLsbD % 2 = 0

/-- The flags of `a - b`. -/
def cmpFlags (a b : BitVec 64) : Flags where
  zero := a == b
  sign := (a - b).msb
  carry := a.ult b
  overflow := a.ssubOverflow b
  parity := evenParity (a - b)

/-- The flags of `a & b`. -/
def testFlags (a b : BitVec 64) : Flags where
  zero := a &&& b == 0
  sign := (a &&& b).msb
  carry := false
  overflow := false
  parity := evenParity (a &&& b)

/-- Instructions on registers. -/
inductive Alu where
  | movRegReg (dst src : Reg)
  | movRegImm64 (dst : Reg) (imm : BitVec 64)
  /-- the immediate is sign-extended -/
  | movRegImm32 (dst : Reg) (imm : BitVec 32)
  | addRegReg (dst src : Reg)
  | addRegImm32 (dst : Reg) (imm : BitVec 32)
  | subRegReg (dst src : Reg)
  | subRegImm32 (dst : Reg) (imm : BitVec 32)
  | imulRegReg (dst src : Reg)
  /-- divides `RDX:RAX` -/
  | idivReg (divisor : Reg)
  | cqo
  | negReg (reg : Reg)
  | notReg (reg : Reg)
  | incReg (reg : Reg)
  | decReg (reg : Reg)
  | andRegReg (dst src : Reg)
  | orRegReg (dst src : Reg)
  | xorRegReg (dst src : Reg)
  /-- the count is the low six bits of `CL` -/
  | shlRegCl (reg : Reg)
  | shrRegCl (reg : Reg)
  | sarRegCl (reg : Reg)
  | cmpRegReg (r1 r2 : Reg)
  | cmpRegImm32 (reg : Reg) (imm : BitVec 32)
  | testRegReg (r1 r2 : Reg)
  /-- writes the low byte -/
  | setcc (cc : Cc) (dst : Reg)
  | movzxR64R8 (dst src : Reg)
  deriving DecidableEq, Repr

structure Machine where
  regs : Reg → BitVec 64
  /-- none when unknown -/
  flags : Option Flags

namespace Machine

variable (m : Machine)

/-- A move. -/
def set (r : Reg) (v : BitVec 64) : Machine := { m with regs := Function.update m.regs r v }

/-- A result of arithmetic. -/
def result (r : Reg) (v : BitVec 64) : Machine := ⟨Function.update m.regs r v, none⟩

/-- The shift count in `CL`. -/
def count : ℕ := (m.regs rcx).toNat % 64

end Machine

/-- The byte in front of which the other bytes of `v` stay. -/
def withLowByte (v : BitVec 64) (byte : BitVec 8) : BitVec 64 := v.extractLsb' 8 56 ++ byte

/-- One instruction; a fault has no result. -/
def exec : Alu → Machine → Option Machine
  | .movRegReg dst src, m => m.set dst (m.regs src)
  | .movRegImm64 dst imm, m => m.set dst imm
  | .movRegImm32 dst imm, m => m.set dst (imm.signExtend 64)
  | .addRegReg dst src, m => m.result dst (m.regs dst + m.regs src)
  | .addRegImm32 dst imm, m => m.result dst (m.regs dst + imm.signExtend 64)
  | .subRegReg dst src, m => m.result dst (m.regs dst - m.regs src)
  | .subRegImm32 dst imm, m => m.result dst (m.regs dst - imm.signExtend 64)
  | .imulRegReg dst src, m => m.result dst (m.regs dst * m.regs src)
  | .idivReg divisor, m =>
    let dividend := (m.regs rdx ++ m.regs rax).toInt
    let d := (m.regs divisor).toInt
    let q := dividend.tdiv d
    if d = 0 ∨ q < -2 ^ 63 ∨ 2 ^ 63 ≤ q then none
    else (m.result rax (BitVec.ofInt 64 q)).result rdx (BitVec.ofInt 64 (dividend.tmod d))
  | .cqo, m => m.set rdx (if (m.regs rax).msb then -1 else 0)
  | .negReg reg, m => m.result reg (-m.regs reg)
  | .notReg reg, m => m.set reg (~~~m.regs reg)
  | .incReg reg, m => m.result reg (m.regs reg + 1)
  | .decReg reg, m => m.result reg (m.regs reg - 1)
  | .andRegReg dst src, m => m.result dst (m.regs dst &&& m.regs src)
  | .orRegReg dst src, m => m.result dst (m.regs dst ||| m.regs src)
  | .xorRegReg dst src, m => m.result dst (m.regs dst ^^^ m.regs src)
  | .shlRegCl reg, m => m.result reg (m.regs reg <<< m.count)
  | .shrRegCl reg, m => m.result reg (m.regs reg >>> m.count)
  | .sarRegCl reg, m => m.result reg ((m.regs reg).sshiftRight m.count)
  | .cmpRegReg r1 r2, m => some { m with flags := cmpFlags (m.regs r1) (m.regs r2) }
  | .cmpRegImm32 reg imm, m => some { m with flags := cmpFlags (m.regs reg) (imm.signExtend 64) }
  | .testRegReg r1 r2, m => some { m with flags := testFlags (m.regs r1) (m.regs r2) }
  | .setcc cc dst, m =>
    m.flags.map fun f => m.set dst (withLowByte (m.regs dst) (if f.holds cc then 1 else 0))
  | .movzxR64R8 dst src, m => m.set dst (((m.regs src).setWidth 8).setWidth 64)

def run : List Alu → Machine → Option Machine
  | [], m => some m
  | i :: is, m => (exec i m).bind (run is)

variable {m : Machine}

theorem run_cons {i : Alu} {is : List Alu} {m' : Machine} (h : exec i m = some m') :
    run (i :: is) m = run is m' := by
  rw [run, h, Option.bind_some]

theorem run_append (is js : List Alu) (m : Machine) :
    run (is ++ js) m = (run is m).bind (run js) := by
  induction is generalizing m with
  | nil => rfl
  | cons i is ih =>
    rw [List.cons_append, run, run, Option.bind_assoc]
    exact congrArg _ (funext ih)

@[simp] theorem set_regs_self (r : Reg) (v : BitVec 64) : (m.set r v).regs r = v := by
  show Function.update m.regs r v r = v
  exact Function.update_self ..

theorem set_regs_of_ne {r r' : Reg} (h : r' ≠ r) (v : BitVec 64) :
    (m.set r v).regs r' = m.regs r' := by
  show Function.update m.regs r v r' = m.regs r'
  exact Function.update_of_ne h ..

@[simp] theorem result_regs_self (r : Reg) (v : BitVec 64) : (m.result r v).regs r = v :=
  set_regs_self r v

theorem result_regs_of_ne {r r' : Reg} (h : r' ≠ r) (v : BitVec 64) :
    (m.result r v).regs r' = m.regs r' :=
  set_regs_of_ne h v

/-! ### Conditions -/

theorem sign_ne_overflow (a b : BitVec 64) :
    ((a - b).msb != a.ssubOverflow b) = decide (a.toInt < b.toInt) := by
  have ha := BitVec.toInt_lt (x := a)
  have ha' := BitVec.le_toInt (x := a)
  have hb := BitVec.toInt_lt (x := b)
  have hb' := BitVec.le_toInt (x := b)
  rw [BitVec.msb_eq_toInt, BitVec.toInt_sub, BitVec.ssubOverflow, Int.bmod_def]
  generalize a.toInt = x at *
  generalize b.toInt = y at *
  rw [Bool.eq_iff_iff, bne_iff_ne, ne_eq, Bool.eq_iff_iff, Bool.or_eq_true, decide_eq_true_eq,
    decide_eq_true_eq, decide_eq_true_eq, decide_eq_true_eq]
  split_ifs <;> omega

theorem zero_cmpFlags (a b : BitVec 64) : (a == b) = decide (a.toInt = b.toInt) := by
  rw [Bool.eq_iff_iff, beq_iff_eq, decide_eq_true_eq, BitVec.toInt_inj]

/-- A condition on signed numbers. -/
def Cc.compares : Cc → ℤ → ℤ → Bool
  | .e, x, y => x = y
  | .ne, x, y => x ≠ y
  | .l, x, y => x < y
  | .g, x, y => y < x
  | .le, x, y => x ≤ y
  | .ge, x, y => y ≤ x
  | _, _, _ => false

/-- The conditions behind a comparison compare. -/
theorem holds_cmpFlags {cc : Cc} (h : cc ∈ [Cc.e, .ne, .l, .g, .le, .ge]) (a b : BitVec 64) :
    (cmpFlags a b).holds cc = cc.compares a.toInt b.toInt := by
  have hsign := sign_ne_overflow a b
  have hsign' : ((a - b).msb == a.ssubOverflow b) = !decide (a.toInt < b.toInt) := by
    rw [← hsign, bne, Bool.not_not]
  have hzero := zero_cmpFlags a b
  simp only [List.mem_cons, List.not_mem_nil, or_false] at h
  rw [Bool.eq_iff_iff]
  rcases h with rfl | rfl | rfl | rfl | rfl | rfl
  · simp only [Flags.holds, cmpFlags, Cc.compares, hzero]
  · simp [Flags.holds, cmpFlags, Cc.compares, hzero]
  · simp only [Flags.holds, cmpFlags, Cc.compares, hsign]
  · simp only [Flags.holds, cmpFlags, Cc.compares, hzero, hsign', Bool.and_eq_true,
      Bool.not_eq_true', decide_eq_false_iff_not, decide_eq_true_eq]
    omega
  · simp only [Flags.holds, cmpFlags, Cc.compares, hzero, hsign, Bool.or_eq_true,
      decide_eq_true_eq]
    omega
  · simp only [Flags.holds, cmpFlags, Cc.compares, hsign', Bool.not_eq_true',
      decide_eq_false_iff_not, decide_eq_true_eq]
    omega

theorem zero_testFlags_self (a : BitVec 64) : (testFlags a a).zero = decide (a = 0) := by
  rw [testFlags, BitVec.and_self]
  rfl

/-! ### A condition as a number -/

/-- A truth value in a register. -/
def ofBool (b : Bool) : BitVec 64 := if b then 1 else 0

theorem setWidth_withLowByte (v : BitVec 64) (b : Bool) :
    ((withLowByte v (if b then 1 else 0)).setWidth 8).setWidth 64 = ofBool b := by
  rw [withLowByte, BitVec.setWidth_append_eq_right, ofBool]
  cases b <;> rfl

theorem exec_setcc {f : Flags} (h : m.flags = some f) (cc : Cc) (dest : Reg) :
    exec (.setcc cc dest) m =
      some (m.set dest (withLowByte (m.regs dest) (if f.holds cc then 1 else 0))) := by
  rw [exec, h, Option.map_some]

/-- A condition is moved into the register of the result as a number. -/
theorem run_setcc_movzx {f : Flags} (h : m.flags = some f) (cc : Cc) (dest : Reg) :
    (run [.setcc cc dest, .movzxR64R8 dest dest] m).map (fun m => m.regs dest) =
      some (ofBool (f.holds cc)) := by
  rw [run_cons (exec_setcc h cc dest), run_cons rfl, run, Option.map_some, set_regs_self,
    set_regs_self, setWidth_withLowByte]

/-! ### Division -/

/-- The sign extension of `RAX` to `RDX:RAX`. -/
theorem toInt_signs_append (v : BitVec 64) :
    ((if v.msb then -1 else 0 : BitVec 64) ++ v).toInt = v.toInt := by
  rw [BitVec.toInt_append, BitVec.toInt_eq_msb_cond]
  cases v.msb
  · simp
  · simp
    omega

/-- Division by zero, and the one quotient that does not fit. -/
def DivFaults (a b : BitVec 64) : Prop := b.toInt = 0 ∨ a.toInt = -2 ^ 63 ∧ b.toInt = -1

instance (a b : BitVec 64) : Decidable (DivFaults a b) :=
  inferInstanceAs (Decidable (_ ∨ _))

theorem natAbs_tdiv_le (x y : ℤ) : (x.tdiv y).natAbs ≤ x.natAbs := by
  rw [Int.natAbs_tdiv]
  exact Nat.div_le_self _ _

theorem quotient_fits_iff {x y : ℤ} (hx : -2 ^ 63 ≤ x) (hx' : x < 2 ^ 63) (hy : y ≠ 0) :
    (x.tdiv y < -2 ^ 63 ∨ 2 ^ 63 ≤ x.tdiv y) ↔ x = -2 ^ 63 ∧ y = -1 := by
  constructor
  · intro h
    have hle := natAbs_tdiv_le x y
    have hq : x.tdiv y = 2 ^ 63 := by omega
    have hmin : x = -2 ^ 63 := by omega
    refine ⟨hmin, ?_⟩
    have habs := Int.natAbs_tdiv x y
    have hmod := Int.mul_tdiv_add_tmod x y
    have hrem := Int.natAbs_tmod x y
    have hlt := Nat.mod_lt x.natAbs (Int.natAbs_pos.mpr hy)
    rw [hq] at hmod
    omega
  · rintro ⟨rfl, rfl⟩
    exact Or.inr (by decide)

/-- Division truncates, and faults on zero and on overflow. -/
theorem run_cqo_idiv {r : Reg} (hr : r ≠ rdx) (is : List Alu) :
    run (.cqo :: .idivReg r :: is) m =
      if DivFaults (m.regs rax) (m.regs r) then none
      else run is (((m.set rdx (if (m.regs rax).msb then -1 else 0)).result rax
        (BitVec.ofInt 64 ((m.regs rax).toInt.tdiv (m.regs r).toInt))).result rdx
        (BitVec.ofInt 64 ((m.regs rax).toInt.tmod (m.regs r).toInt))) := by
  have hrax : rax ≠ rdx := by decide
  have hdividend : ((m.set rdx (if (m.regs rax).msb then -1 else 0)).regs rdx ++
      (m.set rdx (if (m.regs rax).msb then -1 else 0)).regs rax).toInt = (m.regs rax).toInt := by
    rw [set_regs_self, set_regs_of_ne hrax, toInt_signs_append]
  have hiff : ((m.regs r).toInt = 0 ∨ (m.regs rax).toInt.tdiv (m.regs r).toInt < -2 ^ 63 ∨
      2 ^ 63 ≤ (m.regs rax).toInt.tdiv (m.regs r).toInt) ↔
      DivFaults (m.regs rax) (m.regs r) :=
    or_congr_right' fun hzero => quotient_fits_iff (m.regs rax).le_toInt (m.regs rax).toInt_lt hzero
  rw [run_cons rfl, run, exec, hdividend, set_regs_of_ne hr]
  by_cases hfault : DivFaults (m.regs rax) (m.regs r)
  · rw [if_pos (hiff.mpr hfault), if_pos hfault]
    rfl
  · rw [if_neg (mt hiff.mp hfault), if_neg hfault]
    rfl

end X86
