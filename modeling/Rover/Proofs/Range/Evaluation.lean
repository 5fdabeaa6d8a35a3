import Rover.Proofs.Range
import Rover.Proofs.Literals

namespace Rover

/-- What an expression computes in range: no negative integer at any depth, and no array that is too
long. -/
structure Value.Ranged (value : Value) : Prop where
  each : value.Each Value.InRange
  sized : value.Sized

section Ends

variable {moments : Machine → List Moment}

theorem Ranges.evaluated {action : Eval Value}
    (ranges : Ranges (Value.Each Value.InRange) action moments) :
    Ranges Value.Ranged action fun machine =>
      moments machine ++ ending .evaluated action machine := by
  refine ranges.close (fun value shown each same => ?_) fun value machine each sized => ?_
  · cases same
    exact each
  · exact ⟨each, sized value rfl⟩

theorem Ranges.located {action : Eval Located} (ranges : Ranges (fun _ => True) action moments) :
    Ranges (fun _ => True) action fun machine =>
      moments machine ++ ending .located action machine :=
  ranges.close (fun _ _ _ => nofun) fun _ _ _ _ => trivial

theorem Ranges.flushing {α : Type} {good : α → Prop} {action : Eval α}
    (ranges : Ranges good action moments) (writer : Option Writer) :
    Ranges good (Machine.flushing writer action) moments := by
  intro machine inRange sized
  have flushed {after : Machine} (reached : after.InRange) : (after.flushed writer).InRange :=
    reached.of_held (by simp [Machine.held])
  obtain ⟨passed, leads⟩ := ranges machine inRange sized
  rw [leads_flushing]
  exact ⟨passed, leads.mono (fun _ _ reached => ⟨flushed reached.1, reached.2⟩)
    fun _ _ reached => flushed reached⟩

end Ends

section Operations

variable (options : Options)

theorem stays_mismatch (op : BinaryOp) (left right : Value) (pos : Pos) :
    Stays (Value.Each Value.InRange) (Operation.mismatch options op left right pos) :=
  (stays_kindOf _).bind fun _ _ => (stays_kindOf _).bind fun _ _ => stays_fail options _ _

theorem stays_unary (op : UnaryOp) (operand : Value) (pos : Pos) :
    Stays (Value.Each Value.InRange) (Operation.unary options op operand pos) := by
  unfold Operation.unary
  split
  · exact stays_pure (Value.inRange_fold _)
  · exact stays_pure trivial
  · exact stays_pure (Value.inRange_ofBool _)
  · exact stays_pure (Value.inRange_ofBool _)
  · exact stays_throw _
  · exact (stays_kindOf _).bind fun _ _ => stays_fail options _ _

theorem stays_arithmetic (op : BinaryOp) (left right : Value) (pos : Pos) :
    Stays (Value.Each Value.InRange) (Operation.arithmetic options op left right pos) := by
  unfold Operation.arithmetic
  split
  · split
    · exact stays_pure (Value.inRange_fold _)
    · exact stays_pure (Value.inRange_fold _)
    · exact stays_pure (Value.inRange_fold _)
    · split
      · exact stays_fail options _ _
      · exact stays_pure (Value.inRange_fold _)
  · split <;> exact stays_pure trivial
  · exact stays_mismatch options _ _ _ _

theorem stays_comparison (op : BinaryOp) (left right : Value) (pos : Pos) :
    Stays (Value.Each Value.InRange) (Operation.comparison options op left right pos) := by
  unfold Operation.comparison
  split
  · exact stays_pure (Value.inRange_ofBool _)
  · dsimp only
    split <;> split <;> exact stays_pure (Value.inRange_ofBool _)
  · exact stays_mismatch options _ _ _ _

theorem stays_binary (op : BinaryOp) (left right : Value) (pos : Pos) :
    Stays (Value.Each Value.InRange) (Operation.binary options op left right pos) := by
  unfold Operation.binary
  cases op with
  | and | or => exact stays_pure (Value.inRange_ofBool _)
  | add | subtract | multiply | divide => exact stays_arithmetic options _ _ _ _
  | equal | notEqual | less | lessEqual | greater | greaterEqual =>
      exact stays_comparison options _ _ _ _
  | assign | other _ => exact stays_throw _

theorem stays_checkIndex (elements : List Value) (pos : Pos) (position : Value) :
    Stays (fun _ => True) (checkIndex elements pos position) := by
  unfold checkIndex
  split
  · split <;> exact stays_pure trivial
  · exact (stays_kindOf _).bind fun _ _ => stays_pure trivial

theorem stays_named (name : Text) (pos : Pos) : Stays (fun _ => True) (Target.named name pos) := by
  refine stays_get.bind fun machine _ => ?_
  split <;> exact stays_pure trivial

theorem stays_readVariable (name : Text) (pos : Pos) :
    Stays (Value.Each Value.InRange) (readVariable options name pos) := by
  refine stays_get.bind fun machine inRange => ?_
  split
  · next binding found => exact stays_copy (inRange.binding found)
  · exact stays_fail options _ _

end Operations

section Parts

variable (options : Options) {moments others : Machine → List Moment}
  {value position : Eval Value} {target : Eval Located}

theorem ranges_slot (pos : Pos) (located : Ranges (fun _ => True) target moments)
    (evaluated : Ranges Value.Ranged position others) :
    Ranges (fun _ => True) (Target.slot pos target position)
      fun machine => moments machine ++ onward target (fun found after =>
        match found with
        | .ok _ => others after
        | .error _ => []) machine := by
  refine located.bind fun found _ => ?_
  cases found with
  | error error => exact (stays_pure trivial).ranges
  | ok base =>
      refine evaluated.seq fun index _ => (stays_load base).bind fun held _ => ?_
      split
      · refine (stays_checkIndex _ _ _).bind fun checked _ => ?_
        split <;> exact stays_pure trivial
      · exact (stays_kindOf _).bind fun _ _ => stays_pure trivial

theorem ranges_array (builtin : Builtin) (pos : Pos)
    (located : Ranges (fun _ => True) target moments) :
    Ranges (fun _ => True) (Target.array builtin pos target) moments := by
  refine located.seq fun found _ => ?_
  split
  · split <;> exact stays_pure trivial
  · refine (stays_load _).bind fun held _ => ?_
    split
    · split <;> exact stays_pure trivial
    · exact (stays_kindOf _).bind fun _ _ => stays_pure trivial

theorem ranges_push (pos : Pos) (evaluated : Ranges Value.Ranged value moments)
    (located : Ranges (fun _ => True) target others) :
    Ranges (fun _ => True) (Target.push pos target value)
      fun machine => moments machine ++ onward value (fun _ => others) machine := by
  refine evaluated.bind fun pushed ranged => (ranges_array .push pos located).seq fun found _ => ?_
  split
  · exact stays_pure trivial
  · refine (stays_copy ranged.each).bind fun copied each => ?_
    have added : Value.EachIn Value.InRange [copied] := ⟨each, trivial⟩
    exact (stays_modifyArray _ fun before => before.append added).bind fun _ _ => stays_pure trivial

theorem ranges_assign (pos : Pos) (evaluated : Ranges Value.Ranged value moments)
    (located : Ranges (fun _ => True) target others) :
    Ranges (Value.Each Value.InRange) (assign options pos target value)
      fun machine => moments machine ++ onward value (fun _ => others) machine := by
  refine evaluated.bind fun assigned ranged => located.seq fun found _ => ?_
  split
  · exact stays_report options _
  · split
    · exact stays_fail options _ _
    · refine (stays_store _ ranged.each).bind fun result _ => ?_
      split
      · exact stays_pure ranged.each
      · exact stays_fail options _ _

theorem ranges_readElement (pos : Pos) (first : Ranges Value.Ranged value moments)
    (second : Ranges Value.Ranged position others) :
    Ranges (Value.Each Value.InRange) (readElement options pos value position)
      fun machine => moments machine ++ onward value (fun array after =>
        match array with
        | .arr _ _ => others after
        | _ => []) machine := by
  refine first.bind fun array ranged => ?_
  cases array with
  | arr stamp elements =>
      refine second.seq fun index _ => (stays_checkIndex _ _ _).bind fun checked _ => ?_
      split
      · exact stays_report options _
      · next index =>
          refine stays_copy ?_
          cases here : elements[index]? with
          | none => exact trivial
          | some element =>
              exact Value.eachIn_iff.mp ranged.each element (List.mem_of_getElem? here)
  | _ => exact ((stays_kindOf _).bind fun _ _ => stays_fail options _ _).ranges

theorem ranges_lengthOf (pos : Pos) (evaluated : Ranges Value.Ranged value moments) :
    Ranges (Value.Each Value.InRange) (lengthOf options pos value) moments := by
  refine evaluated.seq fun array ranged => ?_
  split
  · exact stays_pure (Value.inRange_length (ranged.sized _ _ rfl))
  · exact (stays_kindOf _).bind fun _ _ => stays_fail options _ _

theorem ranges_pushTo (pos : Pos) (evaluated : Ranges Value.Ranged value moments)
    (located : Ranges (fun _ => True) target others) :
    Ranges (Value.Each Value.InRange) (pushTo options pos target value)
      fun machine => moments machine ++ onward value (fun _ => others) machine := by
  refine (ranges_push pos evaluated located).seq fun found _ => ?_
  split
  · exact stays_report options _
  · exact (stays_load _).bind fun array each => stays_copy each

theorem ranges_popFrom (pos : Pos) (located : Ranges (fun _ => True) target moments) :
    Ranges (Value.Each Value.InRange) (popFrom options pos target) moments := by
  refine (ranges_array .pop pos located).seq fun found _ => ?_
  split
  · exact stays_report options _
  · refine stays_get.bind fun machine inRange => ?_
    split
    · exact stays_pure trivial
    · next last here =>
        have each := inRange.element (List.mem_of_getLast? here)
        exact (stays_orphan each).bind fun _ _ =>
          (stays_modifyArray _ fun before => before.subset (List.dropLast_subset _)).bind fun _ _ =>
            stays_pure each

end Parts

mutual

theorem evaluate_ranges (options : Options) (expr : Expr) (plain : Plain expr.parts) :
    Ranges Value.Ranged (evaluate options expr) (expr.moments options) := by
  cases expr with
  | absent =>
      have ends : Stays (Value.Each Value.InRange) (evaluate options .absent) := by
        rw [evaluate]
        exact stays_throw _
      exact ends.ranges.evaluated
  | int digits pos =>
      have ends : Stays (Value.Each Value.InRange) (evaluate options (.int digits pos)) := by
        rw [evaluate]
        split
        · next number read =>
            have decimal := plain digits pos (Expr.self_mem_parts _)
            exact stays_pure (Value.inRange_of_nonneg (Reading.int64?_nonneg decimal read))
        · exact stays_fail options _ _
      exact ends.ranges.evaluated
  | float digits pos =>
      have ends : Stays (Value.Each Value.InRange) (evaluate options (.float digits pos)) := by
        rw [evaluate]
        split
        · exact stays_pure trivial
        · exact stays_fail options _ _
      exact ends.ranges.evaluated
  | str value pos =>
      have ends : Stays (Value.Each Value.InRange) (evaluate options (.str value pos)) := by
        rw [evaluate]
        exact stays_pure trivial
      exact ends.ranges.evaluated
  | name own pos => exact (stays_readVariable options own pos).ranges.evaluated
  | array elements pos =>
      have made : Ranges (Value.Each Value.InRange) (evaluate options (.array elements pos))
          (momentsEach options elements) :=
        (collect_ranges options elements (plain.mono (Expr.parts_array elements pos))).seq
          fun values each => stays_newArray each
      exact made.evaluated
  | unary op operand pos =>
      have applied :=
        (evaluate_ranges options operand (plain.mono (Expr.parts_unary op operand pos))).seq
          fun value _ => stays_unary options op value pos
      exact applied.evaluated
  | binary op left right pos =>
      have inLeft := plain.mono (Expr.parts_left op left right pos)
      have inRight := plain.mono (Expr.parts_right op left right pos)
      by_cases assigns : op = .assign
      · subst assigns
        exact (ranges_assign options pos (evaluate_ranges options right inRight)
          (locate_ranges options left inLeft)).evaluated
      · have applied := (evaluate_ranges options left inLeft).bind fun first _ =>
          (evaluate_ranges options right inRight).seq fun second _ =>
            stays_binary options op first second pos
        rw [← evaluate_binary _ assigns] at applied
        exact applied.evaluated.congr fun machine =>
          (moments_binary options assigns left right pos machine).symm
  | index array position pos =>
      exact (ranges_readElement options pos
        (evaluate_ranges options array (plain.mono (Expr.parts_base array position pos)))
        (evaluate_ranges options position
          (plain.mono (Expr.parts_position array position pos)))).evaluated
  | call callee arguments pos =>
      by_cases named : ∃ name namePos, callee = .name name namePos
      · obtain ⟨callee, calleePos, rfl⟩ := named
        exact (call_ranges options callee calleePos arguments pos
          (plain.mono (Expr.parts_arguments _ arguments pos))).evaluated
      · have unnamed : ∀ name namePos, callee ≠ .name name namePos :=
          fun name namePos same => named ⟨name, namePos, same⟩
        have fails := (stays_fail options .callee pos).ranges
        rw [← evaluate_call_other _ unnamed arguments] at fails
        exact fails.evaluated.congr fun machine =>
          (moments_call_other options unnamed arguments pos machine).symm

theorem call_ranges (options : Options) (callee : Text) (calleePos : Pos) (arguments : List Expr)
    (pos : Pos) (plain : Plain (partsAll arguments)) :
    Ranges (Value.Each Value.InRange)
      (evaluate options (.call (.name callee calleePos) arguments pos))
      (momentsGiven options (Builtin.ofName? callee) arguments) := by
  have given {argument : Expr} (member : argument ∈ arguments) : Plain argument.parts :=
    plain.mono (parts_subset_partsAll member)
  rw [evaluate_call]
  cases Builtin.ofName? callee with
  | none =>
      refine (stays_fail options _ _).ranges.congr fun machine => ?_
      cases arguments <;> rfl
  | some builtin =>
      cases builtin with
      | printf =>
          cases arguments with
          | nil => exact (stays_fail options _ _).ranges
          | cons format others =>
              refine (evaluate_ranges options format (given List.mem_cons_self)).bind
                fun value _ => ?_
              cases value with
              | str format =>
                  exact (fill_ranges options pos [] _ others
                    (plain.mono (List.subset_append_right _ _))).flushing options.output
              | _ => exact ((stays_kindOf _).bind fun _ _ => stays_fail options _ _).ranges
      | length =>
          match arguments with
          | [] => exact (stays_fail options _ _).ranges
          | [array] =>
              exact ranges_lengthOf options pos
                (evaluate_ranges options array (given List.mem_cons_self))
          | _ :: _ :: _ => exact (stays_fail options _ _).ranges
      | push =>
          match arguments with
          | [] => exact (stays_fail options _ _).ranges
          | [_] => exact (stays_fail options _ _).ranges
          | [target, value] =>
              exact ranges_pushTo options pos
                (evaluate_ranges options value (given (List.mem_cons_of_mem _ List.mem_cons_self)))
                (locate_ranges options target (given List.mem_cons_self))
          | _ :: _ :: _ :: _ => exact (stays_fail options _ _).ranges
      | pop =>
          match arguments with
          | [] => exact (stays_fail options _ _).ranges
          | [target] =>
              exact ranges_popFrom options pos
                (locate_ranges options target (given List.mem_cons_self))
          | _ :: _ :: _ => exact (stays_fail options _ _).ranges

theorem collect_ranges (options : Options) (exprs : List Expr) (plain : Plain (partsAll exprs)) :
    Ranges (Value.EachIn Value.InRange) (collect (evaluateEach options exprs))
      (momentsEach options exprs) := by
  cases exprs with
  | nil => exact (stays_pure trivial).ranges
  | cons first rest =>
      exact (evaluate_ranges options first (plain.mono (List.subset_append_left _ _))).bind
        fun value ranged =>
          (collect_ranges options rest (plain.mono (List.subset_append_right _ _))).seq
            fun values each => stays_pure ⟨ranged.each, each⟩

theorem fill_ranges (options : Options) (pos : Pos) (pending : Text) (template : Template)
    (exprs : List Expr) (plain : Plain (partsAll exprs)) :
    Ranges (Value.Each Value.InRange)
      (Printf.fill options pos pending template (evaluateEach options exprs))
      (momentsFilling options pending template exprs) := by
  cases template with
  | finish before =>
      have ends : Stays (Value.Each Value.InRange) (pure Value.nothing) := stays_pure trivial
      have written := (stays_write options.output (pending ++ before)).bind fun _ _ => ends
      refine written.ranges.congr fun machine => ?_
      cases exprs <;> rfl
  | malformed before fault =>
      have written := (stays_write options.output (pending ++ before)).bind fun _ _ =>
        stays_fail options fault pos
      refine written.ranges.congr fun machine => ?_
      cases exprs <;> rfl
  | hole before rest =>
      cases exprs with
      | nil =>
          exact ((stays_write options.output (pending ++ before)).bind fun _ _ =>
            stays_fail options _ _).ranges
      | cons first others =>
          exact (stays_write options.output (pending ++ before)).andThen fun _ _ =>
            (evaluate_ranges options first (plain.mono (List.subset_append_left _ _))).bind
              fun value _ =>
                fill_ranges options pos value.printed rest others
                  (plain.mono (List.subset_append_right _ _))

theorem locate_ranges (options : Options) (expr : Expr) (plain : Plain expr.parts) :
    Ranges (fun _ => True) (locate options expr) (expr.searching options) := by
  cases expr with
  | name own pos => exact (stays_named own pos).ranges.located
  | index array position pos =>
      exact (ranges_slot pos
        (locate_ranges options array (plain.mono (Expr.parts_base array position pos)))
        (evaluate_ranges options position
          (plain.mono (Expr.parts_position array position pos)))).located
  | call callee arguments pos =>
      by_cases named : ∃ name namePos, callee = .name name namePos
      · obtain ⟨callee, calleePos, rfl⟩ := named
        have given {argument : Expr} (member : argument ∈ arguments) : Plain argument.parts :=
          plain.mono (List.Subset.trans (parts_subset_partsAll member)
            (Expr.parts_arguments _ arguments pos))
        have searched : Ranges (fun _ => True)
            (locate options (.call (.name callee calleePos) arguments pos))
            fun machine => if callee = Builtin.push.name then
              momentsGiven options (some .push) arguments machine else [] := by
          rw [locate_call]
          by_cases isPush : callee = Builtin.push.name
          · simp only [isPush, if_true]
            match arguments with
            | [] => exact (stays_pure trivial).ranges
            | [_] => exact (stays_pure trivial).ranges
            | [target, value] =>
                exact ranges_push pos
                  (evaluate_ranges options value
                    (given (List.mem_cons_of_mem _ List.mem_cons_self)))
                  (locate_ranges options target (given List.mem_cons_self))
            | _ :: _ :: _ :: _ => exact (stays_pure trivial).ranges
          · simp only [isPush, if_false]
            exact (stays_pure trivial).ranges
        exact searched.located
      · have unnamed : ∀ name namePos, callee ≠ .name name namePos :=
          fun name namePos same => named ⟨name, namePos, same⟩
        have searched : Stays (fun _ => True) (locate options (.call callee arguments pos)) := by
          rw [locate_call_other _ unnamed]
          exact stays_pure trivial
        exact searched.ranges.located.congr fun machine =>
          (searching_call_other options unnamed arguments pos machine).symm
  | _ => exact (stays_pure trivial).ranges.located

end

end Rover
