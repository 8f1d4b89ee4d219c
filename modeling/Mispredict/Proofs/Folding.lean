/-
  Constant folding.

  Machine words wrap at 64 bits wherever an operator is applied; over the unbounded integers
  nothing is lost. `Expr.value` is the value of an expression over the integers, in which the two's
  complement of a number goes on to the left without end. Wrapping commutes with all four
  operators (`BinOp.ofInt_applyInt`), so that it makes no difference whether every intermediate
  result wraps or only the last one: folding gives the exact value, wrapped once, of each
  expression that names no register (`Expr.folded_eq_bmod`), however large the numbers get on the
  way. A jump to a compound target goes to that value, unless it is negative
  (`Jump.ofTarget_eq_pc_iff`).
-/
import Mathlib.Data.Int.Bitwise
import Mispredict.Proofs.Language

namespace Mispredict.MuAsm

/-! ## Exact values -/

/-- The operator on unbounded integers, of which `&` takes all the bits of the two's complement. -/
def BinOp.applyInt : BinOp → Int → Int → Int
  | .add, a, b => a + b
  | .sub, a, b => a - b
  | .mul, a, b => a * b
  | .and, a, b => a.land b

/-- The value of an expression over the unbounded integers, where registers have these values. -/
def Expr.value (registers : String → Int) : Expr → Int
  | .register name => registers name
  | .constant value => value.toInt
  | .binary op lhs rhs => op.applyInt (lhs.value registers) (rhs.value registers)

/-! ## Wrapping -/

/-- A machine word keeps the lowest bits of an integer. -/
theorem getLsbD_ofInt {w i : Nat} (h : i < w) (a : Int) :
    (BitVec.ofInt w a).getLsbD i = a.testBit i := by
  cases a with
  | ofNat n =>
    show (BitVec.ofNat w n).getLsbD i = n.testBit i
    rw [BitVec.getLsbD_ofNat, decide_eq_true h, Bool.true_and]
  | negSucc n =>
    rw [BitVec.ofInt_negSucc_eq_not_ofNat, BitVec.getLsbD_not, BitVec.getLsbD_ofNat]
    simp [Int.testBit, h]

theorem ofInt_land (a b : Int) : Int64.ofInt (a.land b) = Int64.ofInt a &&& Int64.ofInt b := by
  refine Int64.toBitVec.inj (BitVec.eq_of_getLsbD_eq fun i hi => ?_)
  rw [Int64.toBitVec_and, BitVec.getLsbD_and]
  simp only [Int64.toBitVec_ofInt, getLsbD_ofInt hi, Int.testBit_land]

/-- Wrapping commutes with the operators. -/
theorem BinOp.ofInt_applyInt (op : BinOp) (a b : Int) :
    Int64.ofInt (op.applyInt a b) = op.apply (Int64.ofInt a) (Int64.ofInt b) := by
  cases op with
  | add => exact Int64.ofInt_add a b
  | sub => exact Int64.ofInt_sub a b
  | mul => exact Int64.ofInt_mul a b
  | and => exact ofInt_land a b

namespace Expr

/-- Without registers, folding gives the exact value, wrapped, whatever registers hold. -/
theorem constant?_eq_ofInt (e : Expr) (registers : String → Int) :
    e.constant? = if e.registers = [] then some (Int64.ofInt (e.value registers)) else none := by
  induction e with
  | register name => simp [constant?, Expr.registers]
  | constant word => simp [constant?, Expr.registers, value]
  | binary op lhs rhs ihl ihr =>
    rw [constant?, ihl, ihr]
    by_cases hl : lhs.registers = []
    · by_cases hr : rhs.registers = []
      · simp [Expr.registers, hl, hr, value, BinOp.ofInt_applyInt]
      · simp [Expr.registers, hl, hr]
    · simp [Expr.registers, hl]

/-- An expression is folded exactly if it names no register. What comes of it is the two's
    complement wrap to 64 bits of its value over the unbounded integers. -/
theorem folded_eq_bmod (e : Expr) (registers : String → Int) :
    e.constant?.map Int64.toInt =
      if e.registers = [] then some ((e.value registers).bmod Int64.size) else none := by
  rw [constant?_eq_ofInt e registers]
  split
  · rw [Option.map_some, Int64.toInt_ofInt]
  · rfl

/-- The square of the largest word is far beyond all words, and wraps to 1; of -1, `&` takes all
    bits. -/
example : (binary .and (.constant (-1))
    (.binary .mul (.constant Int64.maxValue) (.constant Int64.maxValue))).constant? = some 1 := by
  decide

end Expr

/-- A jump to a compound target is bound to a program counter exactly if the target names no
    register and its exact value wraps to that program counter. -/
theorem Jump.ofTarget_eq_pc_iff {target : Expr} (h : ∀ name, target ≠ .register name)
    (labels : Std.ExtTreeMap String Nat) (registers : String → Int) (pc : Nat) :
    Jump.ofTarget labels target = .pc pc ↔
      target.registers = [] ∧ (target.value registers).bmod Int64.size = pc := by
  rw [Program.jumpOfTarget_of_compound h, target.constant?_eq_ofInt registers]
  by_cases hregisters : target.registers = []
  · simp only [hregisters, if_true, Int64.toInt_ofInt, true_and]
    split
    · rw [Jump.pc.injEq]
      omega
    · simp only [reduceCtorEq, false_iff]
      omega
  · simp [hregisters]

end Mispredict.MuAsm
