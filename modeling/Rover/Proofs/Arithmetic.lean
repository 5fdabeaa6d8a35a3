import Mathlib.Algebra.Group.Int.Defs
import Mathlib.Algebra.Group.Nat.Defs
import Rover.Proofs.Action

/-!
Integer arithmetic in 64 bits. Folding takes the remainder of a number by 100, so that sums,
differences and products of folded numbers stay small; negation and division wrap for the least
number only.
-/

namespace Rover

theorem bmod_of_fits {number : Int} (low : -2 ^ 63 ≤ number) (high : number < 2 ^ 63) :
    number.bmod (2 ^ 64) = number :=
  Int.bmod_eq_of_le (by omega) (by omega)

theorem fold_toInt (number : Int64) : (fold number).toInt = number.toInt % 100 := by
  have hundred : (100 : Int64).toInt = 100 := rfl
  have remainder : number.toInt.tmod 100 = number.toInt % 100 ∨
      number.toInt.tmod 100 = number.toInt % 100 - 100 := by
    rw [Int.tmod_eq_emod]
    split
    · exact .inl (Int.sub_zero _)
    · exact .inr rfl
  have shifted : (number % 100 + 100).toInt = number.toInt.tmod 100 + 100 := by
    rw [Int64.toInt_add, Int64.toInt_mod, hundred]
    exact bmod_of_fits (by omega) (by omega)
  rw [fold, Int64.toInt_mod, shifted, hundred, Int.tmod_eq_emod_of_nonneg (by omega)]
  omega

def Folded (number : Int64) : Prop :=
  0 ≤ number.toInt ∧ number.toInt ≤ 99

theorem fold_folded (number : Int64) : Folded (fold number) := by
  unfold Folded
  rw [fold_toInt]
  omega

section Operations

variable (left right : Int64)

theorem toInt_fold_add_fold :
    (fold left + fold right).toInt = (fold left).toInt + (fold right).toInt := by
  obtain ⟨leftLow, leftHigh⟩ := fold_folded left
  obtain ⟨rightLow, rightHigh⟩ := fold_folded right
  rw [Int64.toInt_add]
  exact bmod_of_fits (by omega) (by omega)

theorem toInt_fold_sub_fold :
    (fold left - fold right).toInt = (fold left).toInt - (fold right).toInt := by
  obtain ⟨leftLow, leftHigh⟩ := fold_folded left
  obtain ⟨rightLow, rightHigh⟩ := fold_folded right
  rw [Int64.toInt_sub]
  exact bmod_of_fits (by omega) (by omega)

theorem toInt_fold_mul_fold :
    (fold left * fold right).toInt = (fold left).toInt * (fold right).toInt := by
  obtain ⟨leftLow, leftHigh⟩ := fold_folded left
  obtain ⟨rightLow, rightHigh⟩ := fold_folded right
  have low := Int.mul_nonneg leftLow rightLow
  have high := Int.mul_le_mul leftHigh rightHigh rightLow (by decide)
  rw [Int64.toInt_mul]
  exact bmod_of_fits (by omega) (by omega)

end Operations

/-- Only the least integer has no negation. -/
theorem toInt_neg_of_ne {number : Int64} (differs : number ≠ Int64.minValue) :
    (-number).toInt = -number.toInt := by
  have least : number.toInt ≠ -2 ^ 63 := by
    rw [← Int64.toInt_minValue]
    exact fun same => differs (Int64.toInt_inj.mp same)
  have low := number.le_toInt
  have high := number.toInt_lt
  rw [Int64.toInt_neg]
  exact bmod_of_fits (by omega) (by omega)

theorem ne_minValue_of_nonneg {number : Int64} (nonneg : 0 ≤ number.toInt) :
    number ≠ Int64.minValue := by
  rintro rfl
  exact absurd nonneg (by decide)

/-- None of the operations on two operands wraps around. -/
structure Exact (left right : Int64) : Prop where
  sum : (fold left + fold right).toInt = (fold left).toInt + (fold right).toInt
  difference : (fold left - fold right).toInt = (fold left).toInt - (fold right).toInt
  product : (fold left * fold right).toInt = (fold left).toInt * (fold right).toInt
  quotient : (left / right).toInt = left.toInt.tdiv right.toInt
  negation : (-right).toInt = -right.toInt

theorem exact_of_nonneg {left right : Int64} (leftNonneg : 0 ≤ left.toInt)
    (rightNonneg : 0 ≤ right.toInt) : Exact left right where
  sum := toInt_fold_add_fold left right
  difference := toInt_fold_sub_fold left right
  product := toInt_fold_mul_fold left right
  quotient := Int64.toInt_div_of_ne_left left right (ne_minValue_of_nonneg leftNonneg)
  negation := toInt_neg_of_ne (ne_minValue_of_nonneg rightNonneg)

/-- The evaluation of an expression ends with a sum, difference, product, quotient or negation. -/
inductive Expr.IsArithmetic : Expr → Prop
  | binary {op : BinaryOp} {left right : Expr} {pos : Pos}
      (known : op ∈ [BinaryOp.add, .subtract, .multiply, .divide]) :
      IsArithmetic (.binary op left right pos)
  | negation {operand : Expr} {pos : Pos} : IsArithmetic (.unary .negate operand pos)

/-- If the action ends with an integer, it is one that folding yields. -/
def Folds (action : Eval Value) : Prop :=
  ∀ machine, Leads action machine (fun value _ => ∀ number, value = .int number → Folded number)
    fun _ _ => True

section Folds

variable {α : Type}

theorem folds_bind {action : Eval α} {next : α → Eval Value} (last : ∀ value, Folds (next value)) :
    Folds (action >>= next) := by
  intro machine
  rw [leads_bind]
  unfold Leads
  split
  · exact last _ _
  · trivial

theorem folds_fold (number : Int64) : Folds (pure (.int (fold number))) := by
  rintro machine _ ⟨⟩
  exact fold_folded number

theorem folds_float (number : Float) : Folds (pure (.float number)) :=
  fun _ => nofun

theorem folds_fail (options : Options) (fault : Fault) (pos : Pos) :
    Folds (Machine.fail options fault pos) := by
  refine folds_bind fun _ => ?_
  split
  · exact folds_bind fun _ => folds_bind fun _ _ => nofun
  · exact folds_bind fun _ _ => nofun

theorem folds_arithmetic (options : Options) (op : BinaryOp) (left right : Value) (pos : Pos) :
    Folds (Operation.arithmetic options op left right pos) := by
  unfold Operation.arithmetic
  split
  · split
    · exact folds_fold _
    · exact folds_fold _
    · exact folds_fold _
    · split
      · exact folds_fail _ _ _
      · exact folds_fold _
  · split <;> exact folds_float _
  · exact folds_bind fun _ => folds_bind fun _ => folds_fail _ _ _

theorem folds_negate (options : Options) (operand : Value) (pos : Pos) :
    Folds (Operation.unary options .negate operand pos) := by
  cases operand with
  | int number => exact folds_fold _
  | float number => exact folds_float _
  | _ => exact folds_bind fun _ => folds_fail _ _ _

theorem evaluate_folds (options : Options) {expr : Expr} (arithmetic : expr.IsArithmetic) :
    Folds (evaluate options expr) := by
  cases arithmetic with
  | @binary op left right pos known =>
      have differs : op ≠ .assign := by
        rintro rfl
        exact absurd known (by decide)
      have same (first second : Value) : Operation.binary options op first second pos =
          Operation.arithmetic options op first second pos := by
        simp only [List.mem_cons, List.not_mem_nil, or_false] at known
        obtain rfl | rfl | rfl | rfl := known <;> rfl
      rw [evaluate_binary options differs]
      refine folds_bind fun first => folds_bind fun second => ?_
      rw [same]
      exact folds_arithmetic options op first second pos
  | negation =>
      rw [evaluate]
      exact folds_bind fun value => folds_negate options value _

end Folds

end Rover
