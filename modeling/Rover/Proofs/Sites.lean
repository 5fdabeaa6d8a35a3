import Rover.Proofs.Safety.Execution

/-!
Runtime errors stand where expressions of the program do. An error is made up at the place of the
expression that meets it, or handed on by the search for a target that made it up at the place of
one of its parts; no other place is known to a run.
-/

namespace Rover

def Sited (places : Pos → Prop) (exprs : List Expr) : Prop :=
  ∀ expr ∈ exprs, places expr.pos

theorem Sited.mono {places : Pos → Prop} {exprs others : List Expr} (sited : Sited places exprs)
    (subset : others ⊆ exprs) : Sited places others :=
  fun expr member => sited expr (subset member)

/-- The errors that were recorded between two machines stand at some places. -/
def Recorded (places : Pos → Prop) (old new : Machine) : Prop :=
  ∃ added, new.errors.toList = old.errors.toList ++ added ∧ ∀ error ∈ added, places error.pos

def Found {α : Type} (places : Pos → Prop) : Except RuntimeError α → Prop
  | .ok _ => True
  | .error error => places error.pos

variable {places : Pos → Prop}

theorem recorded_of_eq {old new : Machine} (same : new.errors = old.errors) :
    Recorded places old new :=
  ⟨[], by rw [same, List.append_nil], List.forall_mem_nil _⟩

theorem Recorded.trans {first second third : Machine} (earlier : Recorded places first second)
    (later : Recorded places second third) : Recorded places first third := by
  obtain ⟨added, same, inside⟩ := earlier
  obtain ⟨more, sameLater, insideLater⟩ := later
  refine ⟨added ++ more, ?_, List.forall_mem_append.mpr ⟨inside, insideLater⟩⟩
  rw [sameLater, same, List.append_assoc]

/-- An action that records errors only at some places, and whose value is good. -/
def Reports {α : Type} (places : Pos → Prop) (good : α → Prop) (action : Eval α) : Prop :=
  ∀ machine, Leads action machine
    (fun value after => Recorded places machine after ∧ good value)
    (fun _ after => Recorded places machine after)

section Actions

variable {α β : Type} {good : α → Prop} {final : β → Prop}

theorem reports_pure {value : α} (holds : good value) : Reports places good (pure value) :=
  fun _ => ⟨recorded_of_eq rfl, holds⟩

theorem found_pure (value : α) :
    Reports places (Found places) (pure (.ok value) : Eval (Except RuntimeError α)) :=
  reports_pure trivial

theorem reports_throw (stop : Stop) : Reports places good (throw stop : Eval α) :=
  fun _ => recorded_of_eq rfl

theorem Reports.bind {action : Eval α} {next : α → Eval β} (first : Reports places good action)
    (second : ∀ value, good value → Reports places final (next value)) :
    Reports places final (action >>= next) := by
  intro machine
  rw [leads_bind]
  refine (first machine).mono (fun value middle reached => ?_) fun _ _ stopped => stopped
  exact (second value reached.2 middle).mono
    (fun _ _ ended => ⟨reached.1.trans ended.1, ended.2⟩) fun _ _ stopped => reached.1.trans stopped

theorem Silent.reports {action : Eval α} (silent : Silent action) :
    Reports places (fun _ => True) action :=
  fun machine => (silent.errors machine).mono (fun _ _ same => ⟨recorded_of_eq same, trivial⟩)
    fun _ _ stopped => recorded_of_eq stopped.2

theorem Silent.andThen {action : Eval α} {next : α → Eval β} (silent : Silent action)
    (second : ∀ value, Reports places final (next value)) :
    Reports places final (action >>= next) :=
  silent.reports.bind fun value _ => second value

theorem Reports.flushing {action : Eval α} (reports : Reports places good action)
    (writer : Option Writer) : Reports places good (Machine.flushing writer action) := by
  intro machine
  have flushed (after : Machine) : Recorded places after (after.flushed writer) :=
    recorded_of_eq (Machine.flushed_errors writer after)
  rw [leads_flushing]
  exact (reports machine).mono (fun _ after ended => ⟨ended.1.trans (flushed after), ended.2⟩)
    fun _ after stopped => stopped.trans (flushed after)

theorem reports_report (options : Options) {error : RuntimeError} (inside : places error.pos) :
    Reports places (fun _ => True) (Machine.report options error) := by
  have recorded : Reports places (fun _ => True)
      (modify fun machine => { machine with errors := machine.errors.push error } : Eval PUnit) :=
    fun machine => ⟨⟨[error], Array.toList_push, List.forall_mem_singleton.mpr inside⟩, trivial⟩
  have shown (bytes : Text) : Reports places (fun _ => True) (do
      Machine.write options.diagnostics bytes
      return Value.nothing) :=
    (silent_write options.diagnostics bytes).andThen fun _ => reports_pure trivial
  refine recorded.bind fun _ _ => ?_
  split
  · have stops : Reports places (fun _ : PUnit => True) (throw (.error error)) := reports_throw _
    exact stops.bind fun _ _ => shown _
  · exact shown _

theorem reports_fail (options : Options) (fault : Fault) {pos : Pos} (inside : places pos) :
    Reports places (fun _ => True) (Machine.fail options fault pos) :=
  reports_report options inside

end Actions

section Operations

variable (options : Options) {pos : Pos} (inside : places pos)

include inside

theorem reports_mismatch (op : BinaryOp) (left right : Value) :
    Reports places (fun _ => True) (Operation.mismatch options op left right pos) :=
  (silent_kindOf _).andThen fun _ => (silent_kindOf _).andThen fun _ =>
    reports_fail options _ inside

theorem reports_unary (op : UnaryOp) (operand : Value) :
    Reports places (fun _ => True) (Operation.unary options op operand pos) := by
  unfold Operation.unary
  split
  · exact reports_pure trivial
  · exact reports_pure trivial
  · exact reports_pure trivial
  · exact reports_pure trivial
  · exact reports_throw _
  · exact (silent_kindOf _).andThen fun _ => reports_fail options _ inside

theorem reports_arithmetic (op : BinaryOp) (left right : Value) :
    Reports places (fun _ => True) (Operation.arithmetic options op left right pos) := by
  unfold Operation.arithmetic
  split
  · split
    · exact reports_pure trivial
    · exact reports_pure trivial
    · exact reports_pure trivial
    · split
      · exact reports_fail options _ inside
      · exact reports_pure trivial
  · split <;> exact reports_pure trivial
  · exact reports_mismatch options inside _ _ _

theorem reports_comparison (op : BinaryOp) (left right : Value) :
    Reports places (fun _ => True) (Operation.comparison options op left right pos) := by
  unfold Operation.comparison
  split
  · exact reports_pure trivial
  · dsimp only
    split <;> split <;> exact reports_pure trivial
  · exact reports_mismatch options inside _ _ _

theorem reports_binary (op : BinaryOp) (left right : Value) :
    Reports places (fun _ => True) (Operation.binary options op left right pos) := by
  unfold Operation.binary
  cases op with
  | and | or => exact reports_pure trivial
  | add | subtract | multiply | divide => exact reports_arithmetic options inside _ _ _
  | equal | notEqual | less | lessEqual | greater | greaterEqual =>
      exact reports_comparison options inside _ _ _
  | assign | other _ => exact reports_throw _

theorem found_error {α : Type} (fault : Fault) :
    Reports places (Found places) (pure (.error ⟨fault, pos⟩) : Eval (Except RuntimeError α)) :=
  reports_pure inside

theorem found_checkIndex (elements : List Value) (index : Value) :
    Reports places (Found places) (checkIndex elements pos index) := by
  unfold checkIndex
  split
  · split
    · exact found_pure _
    · exact found_error inside _
  · exact (silent_kindOf _).andThen fun _ => found_error inside _

theorem found_named (name : Text) : Reports places (Found places) (Target.named name pos) := by
  refine silent_get.andThen fun machine => ?_
  split
  · exact found_error inside _
  · exact found_pure _

theorem reports_readVariable (name : Text) :
    Reports places (fun _ => True) (readVariable options name pos) := by
  refine silent_get.andThen fun machine => ?_
  split
  · exact (silent_copy _).reports
  · exact reports_fail options _ inside

end Operations

section Parts

variable (options : Options) {pos : Pos} (inside : places pos) {value index : Eval Value}
  {target : Eval Located}

include inside

theorem found_slot (located : Reports places (Found places) target)
    (evaluated : Reports places (fun _ => True) index) :
    Reports places (Found places) (Target.slot pos target index) := by
  refine located.bind fun found holds => ?_
  cases found with
  | error error => exact reports_pure holds
  | ok base =>
      refine evaluated.bind fun position _ => (silent_load base).andThen fun held => ?_
      split
      · refine (found_checkIndex inside _ _).bind fun checked holds => ?_
        split
        · exact reports_pure holds
        · exact found_pure _
      · exact (silent_kindOf _).andThen fun _ => found_error inside _

theorem found_array (builtin : Builtin) (located : Reports places (Found places) target) :
    Reports places (Found places) (Target.array builtin pos target) := by
  refine located.bind fun found holds => ?_
  split
  · split
    · exact found_error inside _
    · exact reports_pure holds
  · refine (silent_load _).andThen fun held => ?_
    split
    · split
      · exact found_error inside _
      · exact found_pure _
    · exact (silent_kindOf _).andThen fun _ => found_error inside _

theorem found_push (located : Reports places (Found places) target)
    (evaluated : Reports places (fun _ => True) value) :
    Reports places (Found places) (Target.push pos target value) := by
  refine evaluated.bind fun pushed _ => (found_array inside .push located).bind
    fun found holds => ?_
  split
  · exact reports_pure holds
  · exact (silent_copy _).andThen fun _ => (silent_modifyArray _ _).andThen fun _ => found_pure _

theorem reports_assign (located : Reports places (Found places) target)
    (evaluated : Reports places (fun _ => True) value) :
    Reports places (fun _ => True) (assign options pos target value) := by
  refine evaluated.bind fun assigned _ => located.bind fun found holds => ?_
  split
  · exact reports_report options holds
  · split
    · exact reports_fail options _ inside
    · refine (silent_store _ _).andThen fun stored => ?_
      split
      · exact reports_pure trivial
      · exact reports_fail options _ inside

theorem reports_readElement (first : Reports places (fun _ => True) value)
    (second : Reports places (fun _ => True) index) :
    Reports places (fun _ => True) (readElement options pos value index) := by
  refine first.bind fun array _ => ?_
  split
  · refine second.bind fun position _ => (found_checkIndex inside _ _).bind fun checked holds => ?_
    split
    · exact reports_report options holds
    · exact (silent_copy _).reports
  · exact (silent_kindOf _).andThen fun _ => reports_fail options _ inside

theorem reports_lengthOf (evaluated : Reports places (fun _ => True) value) :
    Reports places (fun _ => True) (lengthOf options pos value) := by
  refine evaluated.bind fun array _ => ?_
  split
  · exact reports_pure trivial
  · exact (silent_kindOf _).andThen fun _ => reports_fail options _ inside

theorem reports_pushTo (located : Reports places (Found places) target)
    (evaluated : Reports places (fun _ => True) value) :
    Reports places (fun _ => True) (pushTo options pos target value) := by
  refine (found_push inside located evaluated).bind fun found holds => ?_
  split
  · exact reports_report options holds
  · exact (silent_load _).andThen fun _ => (silent_copy _).reports

theorem reports_popFrom (located : Reports places (Found places) target) :
    Reports places (fun _ => True) (popFrom options pos target) := by
  refine (found_array inside .pop located).bind fun found holds => ?_
  split
  · exact reports_report options holds
  · refine silent_get.andThen fun machine => ?_
    split
    · exact reports_pure trivial
    · exact (silent_orphan _).andThen fun _ => (silent_modifyArray _ _).andThen fun _ =>
        reports_pure trivial

end Parts

theorem reports_collect {actions : List (Eval Value)}
    (each : ∀ action ∈ actions, Reports places (fun _ => True) action) :
    Reports places (fun _ => True) (collect actions) := by
  induction actions with
  | nil => exact reports_pure trivial
  | cons first rest ih =>
      obtain ⟨begins, others⟩ := List.forall_mem_cons.mp each
      exact begins.bind fun _ _ => (ih others).bind fun _ _ => reports_pure trivial

section Printf

variable (options : Options) {pos : Pos} (inside : places pos)

include inside

theorem reports_fill (template : Template) (pending : Text) {actions : List (Eval Value)}
    (each : ∀ action ∈ actions, Reports places (fun _ => True) action) :
    Reports places (fun _ => True) (Printf.fill options pos pending template actions) := by
  induction template generalizing pending actions with
  | finish before => exact (silent_write _ _).andThen fun _ => reports_pure trivial
  | malformed before fault =>
      exact (silent_write _ _).andThen fun _ => reports_fail options _ inside
  | hole before rest ih =>
      cases actions with
      | nil => exact (silent_write _ _).andThen fun _ => reports_fail options _ inside
      | cons first others =>
          obtain ⟨begins, more⟩ := List.forall_mem_cons.mp each
          exact (silent_write _ _).andThen fun _ => begins.bind fun value _ => ih value.printed more

theorem reports_printf {actions : List (Eval Value)}
    (each : ∀ action ∈ actions, Reports places (fun _ => True) action) :
    Reports places (fun _ => True) (Printf.call options pos actions) := by
  cases actions with
  | nil => exact reports_fail options _ inside
  | cons format arguments =>
      obtain ⟨begins, others⟩ := List.forall_mem_cons.mp each
      refine begins.bind fun value _ => ?_
      split
      · exact (reports_fill options inside _ _ others).flushing options.output
      · exact (silent_kindOf _).andThen fun _ => reports_fail options _ inside

end Printf

mutual

theorem evaluate_reports (options : Options) (expr : Expr) (sited : Sited places expr.parts) :
    Reports places (fun _ => True) (evaluate options expr) := by
  have inside : places expr.pos := sited expr expr.self_mem_parts
  cases expr with
  | absent =>
      rw [evaluate]
      exact reports_throw _
  | int digits pos =>
      rw [evaluate]
      split
      · exact reports_pure trivial
      · exact reports_fail options _ inside
  | float digits pos =>
      rw [evaluate]
      split
      · exact reports_pure trivial
      · exact reports_fail options _ inside
  | str value pos =>
      rw [evaluate]
      exact reports_pure trivial
  | name own pos =>
      rw [evaluate]
      exact reports_readVariable options inside own
  | array elements pos =>
      rw [evaluate]
      have each :=
        evaluateEach_reports options elements (sited.mono (Expr.parts_array elements pos))
      exact (reports_collect each).bind fun values _ => (silent_newArray values).reports
  | unary op operand pos =>
      rw [evaluate]
      exact (evaluate_reports options operand (sited.mono (Expr.parts_unary op operand pos))).bind
        fun value _ => reports_unary options inside op value
  | binary op left right pos =>
      have first := sited.mono (Expr.parts_left op left right pos)
      have second :=
        evaluate_reports options right (sited.mono (Expr.parts_right op left right pos))
      by_cases assigns : op = .assign
      · subst assigns
        rw [evaluate]
        exact reports_assign options inside (locate_reports options left first) second
      · rw [evaluate_binary options assigns]
        exact (evaluate_reports options left first).bind fun left _ => second.bind fun right _ =>
          reports_binary options inside op left right
  | index array position pos =>
      rw [evaluate]
      exact reports_readElement options inside
        (evaluate_reports options array (sited.mono (Expr.parts_base array position pos)))
        (evaluate_reports options position (sited.mono (Expr.parts_position array position pos)))
  | call callee arguments pos =>
      by_cases named : ∃ name namePos, callee = .name name namePos
      · obtain ⟨callee, calleePos, rfl⟩ := named
        have given := sited.mono (Expr.parts_arguments (.name callee calleePos) arguments pos)
        exact call_reports options callee calleePos arguments inside given
      · rw [evaluate_call_other options fun name namePos same => named ⟨name, namePos, same⟩]
        exact reports_fail options _ inside

theorem call_reports (options : Options) (callee : Text) (calleePos : Pos) (arguments : List Expr)
    {pos : Pos} (inside : places pos) (sited : Sited places (partsAll arguments)) :
    Reports places (fun _ => True)
      (evaluate options (.call (.name callee calleePos) arguments pos)) := by
  have given {argument : Expr} (member : argument ∈ arguments) : Sited places argument.parts :=
    sited.mono (parts_subset_partsAll member)
  rw [evaluate_call]
  split
  · exact reports_fail options _ inside
  · exact reports_printf options inside (evaluateEach_reports options arguments sited)
  · split
    · exact reports_lengthOf options inside (evaluate_reports options _ (given List.mem_cons_self))
    · exact reports_fail options _ inside
  · split
    · exact reports_pushTo options inside (locate_reports options _ (given List.mem_cons_self))
        (evaluate_reports options _ (given (List.mem_cons_of_mem _ List.mem_cons_self)))
    · exact reports_fail options _ inside
  · split
    · exact reports_popFrom options inside (locate_reports options _ (given List.mem_cons_self))
    · exact reports_fail options _ inside

theorem evaluateEach_reports (options : Options) (exprs : List Expr)
    (sited : Sited places (partsAll exprs)) :
    ∀ action ∈ evaluateEach options exprs, Reports places (fun _ => True) action := by
  cases exprs with
  | nil => exact List.forall_mem_nil _
  | cons first rest =>
      rw [evaluateEach]
      exact List.forall_mem_cons.mpr
        ⟨evaluate_reports options first (sited.mono (List.subset_append_left _ _)),
          evaluateEach_reports options rest (sited.mono (List.subset_append_right _ _))⟩

theorem locate_reports (options : Options) (expr : Expr) (sited : Sited places expr.parts) :
    Reports places (Found places) (locate options expr) := by
  have inside : places expr.pos := sited expr expr.self_mem_parts
  cases expr with
  | name own pos =>
      rw [locate]
      exact found_named inside own
  | index array position pos =>
      rw [locate]
      exact found_slot inside
        (locate_reports options array (sited.mono (Expr.parts_base array position pos)))
        (evaluate_reports options position (sited.mono (Expr.parts_position array position pos)))
  | call callee arguments pos =>
      by_cases named : ∃ name namePos, callee = .name name namePos
      · obtain ⟨callee, calleePos, rfl⟩ := named
        have given {argument : Expr} (member : argument ∈ arguments) :
            Sited places argument.parts :=
          sited.mono (List.Subset.trans (parts_subset_partsAll member)
            (Expr.parts_arguments _ arguments pos))
        rw [locate_call]
        split
        · split
          · exact found_push inside (locate_reports options _ (given List.mem_cons_self))
              (evaluate_reports options _ (given (List.mem_cons_of_mem _ List.mem_cons_self)))
          · exact found_error inside _
        · exact found_error inside _
      · rw [locate_call_other options fun name namePos same => named ⟨name, namePos, same⟩]
        exact found_error inside _
  | _ => exact found_error inside _

end

section Statements

variable {α : Type} {good : α → Prop}

theorem Reports.complete {action : Eval α} (reports : Reports places good action) :
    Reports places good (Machine.complete action) := by
  intro machine
  rw [leads_complete]
  exact (reports _).mono (fun _ _ ended => ended) fun _ _ stopped => stopped

theorem Reports.inScope {action : Eval α} (reports : Reports places good action) :
    Reports places good (Machine.inScope action) := by
  intro machine
  rw [leads_inScope]
  exact (reports _).mono (fun _ _ ended => ended) fun _ _ stopped => stopped

theorem reports_while {condition : Eval Value} {body : Eval Unit}
    (test : Reports places (fun _ => True) condition)
    (repeated : Reports places (fun _ => True) body) (fuel : Nat) :
    Reports places (fun _ => True) (repeatWhile condition body fuel) := by
  induction fuel with
  | zero => exact reports_throw _
  | succ fuel ih =>
      refine test.bind fun value _ => ?_
      split
      · exact repeated.bind fun _ _ => ih
      · exact reports_pure trivial

end Statements

mutual

theorem execute_reports (options : Options) (fuel : Nat) {stmt : Stmt}
    (sited : Sited places (partsAll stmt.exprs)) :
    Reports places (fun _ => True) (execute options fuel stmt) := by
  have complete {expr : Expr} (member : expr ∈ stmt.exprs) :
      Reports places (fun _ => True) (Machine.complete (evaluate options expr)) :=
    (evaluate_reports options expr (sited.mono (parts_subset_partsAll member))).complete
  cases stmt with
  | absent =>
      rw [execute]
      exact reports_throw _
  | eval expr pos =>
      rw [execute]
      exact (complete List.mem_cons_self).bind fun _ _ => reports_pure trivial
  | block body pos =>
      rw [execute]
      exact (executeAll_reports options fuel sited).inScope
  | define name namePos initial constant pos =>
      rw [execute]
      exact (complete List.mem_cons_self).bind fun _ _ _ => ⟨recorded_of_eq rfl, trivial⟩
  | cond condition body bodyPos otherwise pos =>
      have inside : Sited places (partsAll (exprsAll body ++ otherwise.exprs)) :=
        sited.mono (List.subset_append_right _ _)
      rw [partsAll_append] at inside
      rw [execute]
      refine (complete List.mem_cons_self).bind fun value _ => ?_
      split
      · exact (executeAll_reports options fuel (inside.mono (List.subset_append_left _ _))).inScope
      · split
        · exact reports_pure trivial
        · exact execute_reports options fuel (inside.mono (List.subset_append_right _ _))
  | loop condition body bodyPos pos =>
      rw [execute]
      exact reports_while (complete List.mem_cons_self)
        (executeAll_reports options fuel (sited.mono (List.subset_append_right _ _))).inScope fuel

theorem executeAll_reports (options : Options) (fuel : Nat) {stmts : List Stmt}
    (sited : Sited places (partsAll (exprsAll stmts))) :
    Reports places (fun _ => True) (executeAll options fuel stmts) := by
  cases stmts with
  | nil =>
      rw [executeAll]
      exact reports_pure trivial
  | cons first rest =>
      rw [exprsAll, partsAll_append] at sited
      rw [executeAll]
      exact (execute_reports options fuel (sited.mono (List.subset_append_left _ _))).bind
        fun _ _ =>
        executeAll_reports options fuel (sited.mono (List.subset_append_right _ _))

end

/-- Every error that a run records stands where an expression of the program does. -/
theorem run_recorded (options : Options) (fuel : Nat) {program : Program}
    (sited : Sited places (partsAll (exprsAll program.body))) (machine : Machine) :
    Recorded places machine (reached (program.run options fuel machine)) := by
  apply leads_reached.mp
  rw [Program.run, leads_globally]
  exact (executeAll_reports options fuel sited _).mono (fun _ _ ended => ended.1)
    fun _ _ stopped => stopped

end Rover
