import Rover.Proofs.Arithmetic

/-!
Integer arithmetic modulo 100. On all 64-bit integers, those included that no program can make,
sums, differences and products have the remainder of the exact result. So have negations and
quotients, but for the least integer, which is negated, or divided by minus one, in 64 bits before
it is folded.
-/

namespace Rover

/-- The exact result of an operation on two integers. Quotients are truncated toward zero. -/
def BinaryOp.result? (op : BinaryOp) (left right : Int) : Option Int :=
  match op with
  | .add => some (left + right)
  | .subtract => some (left - right)
  | .multiply => some (left * right)
  | .divide => if right = 0 then none else some (left.tdiv right)
  | _ => none

section Folding

variable (left right : Int64)

theorem toInt_fold_add :
    (fold (fold left + fold right)).toInt = (left.toInt + right.toInt) % 100 := by
  rw [fold_toInt, toInt_fold_add_fold, fold_toInt, fold_toInt]
  exact (Int.add_emod _ _ _).symm

theorem toInt_fold_sub :
    (fold (fold left - fold right)).toInt = (left.toInt - right.toInt) % 100 := by
  rw [fold_toInt, toInt_fold_sub_fold, fold_toInt, fold_toInt]
  exact (Int.sub_emod _ _ _).symm

theorem toInt_fold_mul :
    (fold (fold left * fold right)).toInt = left.toInt * right.toInt % 100 := by
  rw [fold_toInt, toInt_fold_mul_fold, fold_toInt, fold_toInt]
  exact (Int.mul_emod _ _ _).symm

theorem toInt_fold_div : (fold (left / right)).toInt =
    if left = Int64.minValue ∧ right = -1 then 92 else left.toInt.tdiv right.toInt % 100 := by
  split
  · next overflows =>
      obtain ⟨rfl, rfl⟩ := overflows
      decide
  · next fits =>
      have quotient : (left / right).toInt = left.toInt.tdiv right.toInt := by
        by_cases least : left = Int64.minValue
        · exact Int64.toInt_div_of_ne_right left right fun negative => fits ⟨least, negative⟩
        · exact Int64.toInt_div_of_ne_left left right least
      rw [fold_toInt, quotient]

theorem toInt_fold_neg (number : Int64) : (fold (-number)).toInt =
    if number = Int64.minValue then 92 else -number.toInt % 100 := by
  split
  · next overflows =>
      subst overflows
      decide
  · next fits => rw [fold_toInt, toInt_neg_of_ne fits]

end Folding

theorem arithmetic_exact (options : Options) {op : BinaryOp} {left right : Int64} {exact : Int}
    (known : op.result? left.toInt right.toInt = some exact) (pos : Pos) :
    ∃ number, Operation.binary options op (.int left) (.int right) pos = pure (.int number) ∧
      number.toInt = if op = .divide ∧ left = Int64.minValue ∧ right = -1 then 92
        else exact % 100 := by
  cases op with
  | add =>
      cases known
      exact ⟨_, rfl, toInt_fold_add left right⟩
  | subtract =>
      cases known
      exact ⟨_, rfl, toInt_fold_sub left right⟩
  | multiply =>
      cases known
      exact ⟨_, rfl, toInt_fold_mul left right⟩
  | divide =>
      rw [BinaryOp.result?] at known
      split at known
      · cases known
      · next nonzero =>
          cases known
          have differs : right ≠ 0 := by
            rintro rfl
            exact nonzero rfl
          refine ⟨_, if_neg differs, ?_⟩
          simp only [true_and]
          exact toInt_fold_div left right
  | _ => cases known

/-- Arithmetic on integers yields the remainder by 100 of the exact result, whatever the operands
are, unless the least integer is negated or divided by minus one: then it yields 92. A division by
zero is reported. -/
theorem arithmetic_remainder (options : Options) {machine middle after : Machine}
    {left right : Expr} {first second : Int64}
    (evaluatedLeft : evaluate options left machine = .ok (.int first) middle)
    (evaluatedRight : evaluate options right middle = .ok (.int second) after) (pos : Pos) :
    (∀ op exact, op.result? first.toInt second.toInt = some exact →
      ∃ number, evaluate options (.binary op left right pos) machine = .ok (.int number) after ∧
        number.toInt = if op = .divide ∧ first = Int64.minValue ∧ second = -1 then 92
          else exact % 100) ∧
    (second = 0 → evaluate options (.binary .divide left right pos) machine =
      Machine.report options ⟨.divisionByZero, pos⟩ after) ∧
    ∃ number, evaluate options (.unary .negate left pos) machine = .ok (.int number) middle ∧
      number.toInt = if first = Int64.minValue then 92 else -first.toInt % 100 := by
  have binary {op : BinaryOp} (differs : op ≠ .assign) :
      evaluate options (.binary op left right pos) machine =
        Operation.binary options op (.int first) (.int second) pos after := by
    rw [evaluate_binary options differs, bind_of_ok evaluatedLeft, bind_of_ok evaluatedRight]
  refine ⟨fun op exact known => ?_, fun zero => ?_, ?_⟩
  · have differs : op ≠ .assign := by
      rintro rfl
      cases known
    obtain ⟨number, yields, remainder⟩ := arithmetic_exact options known pos
    rw [binary differs, yields]
    exact ⟨number, rfl, remainder⟩
  · subst zero
    have divides : BinaryOp.divide ≠ .assign := nofun
    rw [binary divides]
    rfl
  · rw [evaluate, bind_of_ok evaluatedLeft]
    exact ⟨_, rfl, toInt_fold_neg first⟩

/-- A machine whose host has supplied the least integer as `a` and minus one as `b`. -/
def leastSupplied : Machine :=
  { Machine.new with
    scopes := [[(text "a", ⟨.int Int64.minValue, false⟩), (text "b", ⟨.int (-1), false⟩)]] }

theorem arithmetic_remainder_least :
    ∃ number, evaluate ⟨true, 0, none, none⟩
        (.binary .add (.name (text "a") .unknown) (.name (text "b") .unknown) .unknown)
          leastSupplied =
      .ok (.int number) leastSupplied ∧ number.toInt = 91 := by
  have least : evaluate ⟨true, 0, none, none⟩ (.name (text "a") .unknown) leastSupplied =
    .ok (.int Int64.minValue) leastSupplied := rfl
  have negative : evaluate ⟨true, 0, none, none⟩ (.name (text "b") .unknown) leastSupplied =
    .ok (.int (-1)) leastSupplied := rfl
  obtain ⟨sums, _⟩ := arithmetic_remainder ⟨true, 0, none, none⟩ least negative .unknown
  obtain ⟨number, yields, remainder⟩ := sums .add _ rfl
  exact ⟨number, yields, remainder⟩

/-- Negated, or divided by minus one, the least integer yields 92, and not the remainder of its
exact negation, which is 8. -/
theorem least_negated_wraps :
    ∃ number, evaluate ⟨true, 0, none, none⟩ (.unary .negate (.name (text "a") .unknown) .unknown)
        leastSupplied = .ok (.int number) leastSupplied ∧
      evaluate ⟨true, 0, none, none⟩
        (.binary .divide (.name (text "a") .unknown) (.name (text "b") .unknown) .unknown)
        leastSupplied = .ok (.int number) leastSupplied ∧
      number.toInt ≠ -Int64.minValue.toInt % 100 ∧
      number.toInt ≠ Int64.minValue.toInt.tdiv (-1) % 100 :=
  ⟨92, rfl, rfl, by decide, by decide⟩

end Rover
