import Rover.Proofs.Strictness

/-!
Strict evaluation is lenient evaluation cut at the first error: every kind of expression reports its
own error last, so the moment at which it ends is the first one that shows the error.
-/

namespace Rover

section Reports

variable (options : Options)

theorem cut_report (error : RuntimeError) :
    Cut true (Machine.report options.strictly error) (Machine.report options.leniently error)
      fun _ => [] := by
  refine ⟨fun machine => ?_, Machine.grows_respected.report options.leniently error⟩
  obtain ⟨events, wrote, grows⟩ := write_result options.diagnostics
    (text "runtime error: " ++ error.shown ++ text "\n")
    { machine with errors := machine.errors.push error }
  have stops : Machine.report options.strictly error machine =
      .error (.error error) { machine with errors := machine.errors.push error } := rfl
  have goesOn : Machine.report options.leniently error machine =
      .ok .nothing { machine with errors := machine.errors.push error, events } := by
    have continued : Machine.report options.leniently error machine =
        (Machine.write options.diagnostics (text "runtime error: " ++ error.shown ++ text "\n") >>=
          fun _ => pure Value.nothing) { machine with errors := machine.errors.push error } := rfl
    rw [continued, bind_of_ok wrote]
    rfl
  rw [stops, goesOn]
  exact .recording (calm_nil machine) ⟨rfl, rfl, List.suffix_rfl, grows.written⟩

theorem cut_fail (fault : Fault) (pos : Pos) :
    Cut true (Machine.fail options.strictly fault pos) (Machine.fail options.leniently fault pos)
      fun _ => [] :=
  cut_report options ⟨fault, pos⟩

theorem cut_unary (op : UnaryOp) (operand : Value) (pos : Pos) :
    Cut true (Operation.unary options.strictly op operand pos)
      (Operation.unary options.leniently op operand pos) fun _ => [] := by
  unfold Operation.unary
  split
  · exact (silent_pure _).cut
  · exact (silent_pure _).cut
  · exact (silent_pure _).cut
  · exact (silent_pure _).cut
  · exact (silent_throw (unsupported_ne_error _)).cut
  · exact (silent_kindOf _).seq fun _ => cut_fail options _ _

theorem cut_mismatch (op : BinaryOp) (left right : Value) (pos : Pos) :
    Cut true (Operation.mismatch options.strictly op left right pos)
      (Operation.mismatch options.leniently op left right pos) fun _ => [] :=
  (silent_kindOf left).seq fun _ => (silent_kindOf right).seq fun _ => cut_fail options _ _

theorem cut_arithmetic (op : BinaryOp) (left right : Value) (pos : Pos) :
    Cut true (Operation.arithmetic options.strictly op left right pos)
      (Operation.arithmetic options.leniently op left right pos) fun _ => [] := by
  unfold Operation.arithmetic
  split
  · split
    · exact (silent_pure _).cut
    · exact (silent_pure _).cut
    · exact (silent_pure _).cut
    · split
      · exact cut_fail options _ _
      · exact (silent_pure _).cut
  · split <;> exact (silent_pure _).cut
  · exact cut_mismatch options _ _ _ _

theorem cut_comparison (op : BinaryOp) (left right : Value) (pos : Pos) :
    Cut true (Operation.comparison options.strictly op left right pos)
      (Operation.comparison options.leniently op left right pos) fun _ => [] := by
  unfold Operation.comparison
  split
  · exact (silent_pure _).cut
  · refine Silent.cut ?_
    dsimp only
    split <;> split <;> exact silent_pure _
  · exact cut_mismatch options _ _ _ _

theorem cut_binary (op : BinaryOp) (left right : Value) (pos : Pos) :
    Cut true (Operation.binary options.strictly op left right pos)
      (Operation.binary options.leniently op left right pos) fun _ => [] := by
  unfold Operation.binary
  cases op with
  | and | or => exact (silent_pure _).cut
  | add | subtract | multiply | divide => exact cut_arithmetic options _ _ _ _
  | equal | notEqual | less | lessEqual | greater | greaterEqual =>
      exact cut_comparison options _ _ _ _
  | assign | other _ => exact (silent_throw (unsupported_ne_error _)).cut

theorem cut_readVariable (name : Text) (pos : Pos) :
    Cut true (readVariable options.strictly name pos) (readVariable options.leniently name pos)
      fun _ => [] := by
  refine silent_get.seq fun machine => ?_
  split
  · exact (silent_copy _).cut
  · exact cut_fail options _ _

end Reports

section Parts

variable (options : Options) {moments others : Machine → List Moment}
  {strict lenient strictly leniently : Eval Value} {strictTarget lenientTarget : Eval Located}

theorem cut_slot (pos : Pos) (located : Cut false strictTarget lenientTarget moments)
    (evaluated : Cut false strict lenient others) :
    Cut true (Target.slot pos strictTarget strict) (Target.slot pos lenientTarget lenient)
      fun machine => moments machine ++ onward lenientTarget (fun found after =>
        match found with
        | .ok _ => others after
        | .error _ => []) machine := by
  refine located.bind fun found => ?_
  cases found with
  | error error => exact (silent_pure _).cut
  | ok base =>
      refine evaluated.seq fun position => (silent_load base).seq fun value => ?_
      split
      · refine (silent_checkIndex _ _ _).seq fun checked => ?_
        split <;> exact (silent_pure _).cut
      · exact (silent_kindOf _).seq fun _ => (silent_pure _).cut

theorem cut_array (builtin : Builtin) (pos : Pos)
    (located : Cut false strictTarget lenientTarget moments) :
    Cut false (Target.array builtin pos strictTarget) (Target.array builtin pos lenientTarget)
      moments := by
  refine located.seq fun found => ?_
  split
  · split <;> exact (silent_pure _).cut
  · refine (silent_load _).seq fun value => ?_
    split
    · split <;> exact (silent_pure _).cut
    · exact (silent_kindOf _).seq fun _ => (silent_pure _).cut

theorem cut_push (pending : Bool) (pos : Pos) (evaluated : Cut false strict lenient moments)
    (located : Cut false strictTarget lenientTarget others) :
    Cut pending (Target.push pos strictTarget strict) (Target.push pos lenientTarget lenient)
      fun machine => moments machine ++ onward lenient (fun _ => others) machine := by
  refine evaluated.bind fun value => (cut_array .push pos located).seq fun found => ?_
  split
  · exact (silent_pure _).cut
  · exact (silent_copy value).seq fun copied => (silent_modifyArray _ _).seq fun _ =>
      (silent_pure _).cut

theorem cut_assign (pos : Pos) (evaluated : Cut false strict lenient moments)
    (located : Cut false strictTarget lenientTarget others) :
    Cut true (assign options.strictly pos strictTarget strict)
      (assign options.leniently pos lenientTarget lenient)
      fun machine => moments machine ++ onward lenient (fun _ => others) machine := by
  refine evaluated.bind fun value => located.seq fun found => ?_
  split
  · exact cut_report options _
  · split
    · exact cut_fail options _ _
    · refine (silent_store _ _).seq fun result => ?_
      split
      · exact (silent_pure _).cut
      · exact cut_fail options _ _

theorem cut_readElement (pos : Pos) (first : Cut false strict lenient moments)
    (second : Cut false strictly leniently others) :
    Cut true (readElement options.strictly pos strict strictly)
      (readElement options.leniently pos lenient leniently)
      fun machine => moments machine ++ onward lenient (fun value after =>
        match value with
        | .arr _ _ => others after
        | _ => []) machine := by
  refine first.bind fun value => ?_
  cases value with
  | arr stamp elements =>
      refine second.seq fun position => (silent_checkIndex _ _ _).seq fun checked => ?_
      split
      · exact cut_report options _
      · exact (silent_copy _).cut
  | _ => exact (silent_kindOf _).seq fun _ => cut_fail options _ _

theorem cut_lengthOf (pos : Pos) (evaluated : Cut false strict lenient moments) :
    Cut true (lengthOf options.strictly pos strict) (lengthOf options.leniently pos lenient)
      moments := by
  refine evaluated.seq fun value => ?_
  split
  · exact (silent_pure _).cut
  · exact (silent_kindOf _).seq fun _ => cut_fail options _ _

theorem cut_pushTo (pos : Pos) (evaluated : Cut false strict lenient moments)
    (located : Cut false strictTarget lenientTarget others) :
    Cut true (pushTo options.strictly pos strictTarget strict)
      (pushTo options.leniently pos lenientTarget lenient)
      fun machine => moments machine ++ onward lenient (fun _ => others) machine := by
  refine (cut_push false pos evaluated located).seq fun found => ?_
  split
  · exact cut_report options _
  · exact (silent_load _).seq fun value => (silent_copy value).cut

theorem cut_popFrom (pos : Pos) (located : Cut false strictTarget lenientTarget moments) :
    Cut true (popFrom options.strictly pos strictTarget)
      (popFrom options.leniently pos lenientTarget) moments := by
  refine (cut_array .pop pos located).seq fun found => ?_
  split
  · exact cut_report options _
  · refine silent_get.seq fun machine => ?_
    split
    · exact (silent_pure _).cut
    · exact (silent_orphan _).seq fun _ => (silent_modifyArray _ _).seq fun _ => (silent_pure _).cut

end Parts

mutual

theorem evaluate_cut (options : Options) (expr : Expr) :
    Cut false (evaluate options.strictly expr) (evaluate options.leniently expr)
      (expr.moments options.leniently) := by
  cases expr with
  | absent =>
      have ends : Cut true (evaluate options.strictly .absent)
          (evaluate options.leniently .absent) fun _ => [] := by
        rw [evaluate, evaluate]
        exact (silent_throw (unsupported_ne_error _)).cut
      exact ends.close .evaluated
  | int digits pos =>
      have ends : Cut true (evaluate options.strictly (.int digits pos))
          (evaluate options.leniently (.int digits pos)) fun _ => [] := by
        rw [evaluate, evaluate]
        split
        · exact (silent_pure _).cut
        · exact cut_fail options _ _
      exact ends.close .evaluated
  | float digits pos =>
      have ends : Cut true (evaluate options.strictly (.float digits pos))
          (evaluate options.leniently (.float digits pos)) fun _ => [] := by
        rw [evaluate, evaluate]
        split
        · exact (silent_pure _).cut
        · exact cut_fail options _ _
      exact ends.close .evaluated
  | str value pos =>
      have ends : Cut true (evaluate options.strictly (.str value pos))
          (evaluate options.leniently (.str value pos)) fun _ => [] := by
        rw [evaluate, evaluate]
        exact (silent_pure _).cut
      exact ends.close .evaluated
  | name own pos =>
      exact (cut_readVariable options own pos).close .evaluated
  | array elements pos =>
      have made : Cut true (evaluate options.strictly (.array elements pos))
          (evaluate options.leniently (.array elements pos))
          (momentsEach options.leniently elements) :=
        (collect_cut options elements).seq fun values => (silent_newArray values).cut
      exact made.close .evaluated
  | unary op operand pos =>
      have applied := (evaluate_cut options operand).seq fun value => cut_unary options op value pos
      exact applied.close .evaluated
  | binary op left right pos =>
      by_cases assigns : op = .assign
      · subst assigns
        exact (cut_assign options pos (evaluate_cut options right) (locate_cut options left)).close
          .evaluated
      · have applied := (evaluate_cut options left).bind fun first =>
          (evaluate_cut options right).seq fun second => cut_binary options op first second pos
        rw [← evaluate_binary _ assigns, ← evaluate_binary _ assigns] at applied
        exact (applied.close .evaluated).congr fun machine =>
          (moments_binary options.leniently assigns left right pos machine).symm
  | index array position pos =>
      exact (cut_readElement options pos (evaluate_cut options array)
        (evaluate_cut options position)).close .evaluated
  | call callee arguments pos =>
      by_cases named : ∃ name namePos, callee = .name name namePos
      · obtain ⟨callee, calleePos, rfl⟩ := named
        exact (call_cut options callee calleePos arguments pos).close .evaluated
      · have unnamed : ∀ name namePos, callee ≠ .name name namePos :=
          fun name namePos same => named ⟨name, namePos, same⟩
        have fails := cut_fail options .callee pos
        rw [← evaluate_call_other _ unnamed arguments, ← evaluate_call_other _ unnamed arguments]
          at fails
        exact (fails.close .evaluated).congr fun machine =>
          (moments_call_other options.leniently unnamed arguments pos machine).symm

theorem call_cut (options : Options) (callee : Text) (calleePos : Pos) (arguments : List Expr)
    (pos : Pos) :
    Cut true (evaluate options.strictly (.call (.name callee calleePos) arguments pos))
      (evaluate options.leniently (.call (.name callee calleePos) arguments pos))
      (momentsGiven options.leniently (Builtin.ofName? callee) arguments) := by
  rw [evaluate_call, evaluate_call]
  cases Builtin.ofName? callee with
  | none =>
      refine (cut_fail options _ _).congr fun machine => ?_
      cases arguments <;> rfl
  | some builtin =>
      cases builtin with
      | printf =>
          cases arguments with
          | nil => exact cut_fail options _ _
          | cons format others =>
              refine (evaluate_cut options format).bind fun value => ?_
              cases value with
              | str format => exact (fill_cut options pos [] _ others).flushing options.output
              | _ => exact (silent_kindOf _).seq fun _ => cut_fail options _ _
      | length =>
          match arguments with
          | [] => exact cut_fail options _ _
          | [array] => exact cut_lengthOf options pos (evaluate_cut options array)
          | _ :: _ :: _ => exact cut_fail options _ _
      | push =>
          match arguments with
          | [] => exact cut_fail options _ _
          | [_] => exact cut_fail options _ _
          | [target, value] =>
              exact cut_pushTo options pos (evaluate_cut options value) (locate_cut options target)
          | _ :: _ :: _ :: _ => exact cut_fail options _ _
      | pop =>
          match arguments with
          | [] => exact cut_fail options _ _
          | [target] => exact cut_popFrom options pos (locate_cut options target)
          | _ :: _ :: _ => exact cut_fail options _ _

theorem collect_cut (options : Options) (exprs : List Expr) :
    Cut false (collect (evaluateEach options.strictly exprs))
      (collect (evaluateEach options.leniently exprs)) (momentsEach options.leniently exprs) := by
  cases exprs with
  | nil => exact (silent_pure _).cut
  | cons first rest =>
      exact (evaluate_cut options first).bind fun value =>
        (collect_cut options rest).seq fun values => (silent_pure _).cut

theorem fill_cut (options : Options) (pos : Pos) (pending : Text) (template : Template)
    (exprs : List Expr) :
    Cut true
      (Printf.fill options.strictly pos pending template (evaluateEach options.strictly exprs))
      (Printf.fill options.leniently pos pending template (evaluateEach options.leniently exprs))
      (momentsFilling options.leniently pending template exprs) := by
  cases template with
  | finish before =>
      have written : Cut true _ _ fun _ => [] :=
        (silent_write options.output (pending ++ before)).seq fun _ =>
          (silent_pure Value.nothing).cut
      refine written.congr fun machine => ?_
      cases exprs <;> rfl
  | malformed before fault =>
      have written := (silent_write options.output (pending ++ before)).seq fun _ =>
        cut_fail options fault pos
      refine written.congr fun machine => ?_
      cases exprs <;> rfl
  | hole before rest =>
      cases exprs with
      | nil =>
          exact (silent_write options.output (pending ++ before)).seq fun _ => cut_fail options _ _
      | cons first others =>
          exact (silent_write options.output (pending ++ before)).bind fun _ =>
            (evaluate_cut options first).bind fun value =>
              fill_cut options pos value.printed rest others

theorem locate_cut (options : Options) (expr : Expr) :
    Cut false (locate options.strictly expr) (locate options.leniently expr)
      (expr.searching options.leniently) := by
  cases expr with
  | name own pos => exact (silent_named own pos).cut.close .located
  | index array position pos =>
      exact (cut_slot pos (locate_cut options array) (evaluate_cut options position)).close .located
  | call callee arguments pos =>
      by_cases named : ∃ name namePos, callee = .name name namePos
      · obtain ⟨callee, calleePos, rfl⟩ := named
        have searched : Cut true
            (locate options.strictly (.call (.name callee calleePos) arguments pos))
            (locate options.leniently (.call (.name callee calleePos) arguments pos))
            fun machine => if callee = Builtin.push.name then
              momentsGiven options.leniently (some .push) arguments machine else [] := by
          rw [locate_call, locate_call]
          by_cases isPush : callee = Builtin.push.name
          · simp only [isPush, if_true]
            match arguments with
            | [] => exact (silent_pure _).cut
            | [_] => exact (silent_pure _).cut
            | [target, value] =>
                exact cut_push true pos (evaluate_cut options value) (locate_cut options target)
            | _ :: _ :: _ :: _ => exact (silent_pure _).cut
          · simp only [isPush, if_false]
            exact (silent_pure _).cut
        exact searched.close .located
      · have unnamed : ∀ name namePos, callee ≠ .name name namePos :=
          fun name namePos same => named ⟨name, namePos, same⟩
        have searched : Cut true (locate options.strictly (.call callee arguments pos))
            (locate options.leniently (.call callee arguments pos)) fun _ => [] := by
          rw [locate_call_other _ unnamed, locate_call_other _ unnamed]
          exact (silent_pure _).cut
        exact (searched.close .located).congr fun machine =>
          (searching_call_other options.leniently unnamed arguments pos machine).symm
  | _ => exact (silent_pure _).cut.close .located

end

end Rover
