import Rover.Proofs.Strictness.Evaluation

namespace Rover

section Statements

variable {strict lenient : Eval Unit} {moments : Machine → List Moment}

theorem Outcome.around {α : Type} {machine : Machine}
    {strict lenient : EStateM.Result Stop Machine α} {moments : List Moment} {first last : Moment}
    (outcome : Outcome machine false strict lenient moments)
    (begins : first.machine.errors = machine.errors) (ends : last.machine = reached lenient) :
    Outcome machine false strict lenient (first :: moments ++ [last]) := by
  have calmFirst : Calm machine [first] := by
    intro moment member
    rw [List.mem_singleton.mp member, begins]
  cases outcome with
  | done errors calm =>
      refine .done errors ((calmFirst.append calm).append fun moment member => ?_)
      rw [List.mem_singleton.mp member, ends]
      exact errors
  | halted other errors calm =>
      refine .halted other errors ((calmFirst.append calm).append fun moment member => ?_)
      rw [List.mem_singleton.mp member, ends]
      exact errors
  | @recorded _ _ _ _ before _ _ calm records grows =>
      rw [← List.singleton_append, ← List.append_assoc, List.append_assoc, List.cons_append]
      exact .recorded (calmFirst.append calm) records grows

theorem Cut.inScope (cut : Cut false strict lenient moments) :
    Cut false (Machine.inScope strict) (Machine.inScope lenient)
      (momentsInside moments lenient) := by
  refine ⟨fun machine => ?_, cut.grows.inScope Machine.grows_respected.scope⟩
  have harmless : Harmless fun after => { after with scopes := after.scopes.tail } :=
    ⟨fun _ => rfl, fun _ => .of_eq rfl rfl, fun _ _ => rfl, fun _ => List.tail_suffix _⟩
  have outcome := (cut.outcome { machine with scopes := [] :: machine.scopes }).change harmless
    Bool.noConfusion
  rw [← inScope_eq_changing, ← inScope_eq_changing] at outcome
  exact Outcome.around (outcome.since rfl) rfl (after_eq_reached machine (Machine.inScope lenient))

theorem cut_define (name : Text) (value : Value) (constant : Bool) :
    Cut false (Machine.define name value constant) (Machine.define name value constant)
      fun after =>
        [⟨.defined name, { after with scopes := after.scopes.define name ⟨value, constant⟩ }⟩] := by
  refine ⟨fun machine => .done rfl fun moment member => ?_,
    fun machine => Machine.grows_respected.define machine name _⟩
  rw [List.mem_singleton.mp member]

theorem cut_while {strictTest lenientTest : Eval Value} {tested : Machine → List Moment}
    (test : Cut false strictTest lenientTest tested) (body : Cut false strict lenient moments)
    (fuel : Nat) :
    Cut false (repeatWhile strictTest strict fuel) (repeatWhile lenientTest lenient fuel)
      (momentsWhile lenientTest lenient tested moments fuel) := by
  induction fuel with
  | zero =>
      refine Silent.cut (silent_throw fun error same => ?_)
      cases same
  | succ fuel ih =>
      refine test.bind fun value => ?_
      split
      · exact body.bind fun _ => ih
      · exact (silent_pure _).cut

end Statements

theorem cut_complete (options : Options) (expr : Expr) :
    Cut false (Machine.complete (evaluate options.strictly expr))
      (Machine.complete (evaluate options.leniently expr))
      (momentsComplete options.leniently expr) :=
  (evaluate_cut options expr).complete

mutual

theorem execute_cut (options : Options) (fuel : Nat) (stmt : Stmt) :
    Cut false (execute options.strictly fuel stmt) (execute options.leniently fuel stmt)
      (stmt.moments options.leniently fuel) := by
  cases stmt with
  | absent =>
      rw [execute, execute]
      exact (silent_throw (unsupported_ne_error _)).cut
  | eval expr pos =>
      rw [execute, execute]
      exact (cut_complete options expr).seq fun _ => (silent_pure _).cut
  | block body pos =>
      rw [execute, execute]
      exact (executeAll_cut options fuel body).inScope
  | define name namePos initial constant pos =>
      rw [execute, execute]
      exact (cut_complete options initial).bind fun value => cut_define name value constant
  | cond condition body bodyPos otherwise pos =>
      rw [execute, execute]
      refine (cut_complete options condition).bind fun value => ?_
      split
      · exact (executeAll_cut options fuel body).inScope
      · split
        · exact (silent_pure _).cut
        · exact execute_cut options fuel otherwise
  | loop condition body bodyPos pos =>
      rw [execute, execute]
      exact cut_while (cut_complete options condition)
        (executeAll_cut options fuel body).inScope fuel

theorem executeAll_cut (options : Options) (fuel : Nat) (stmts : List Stmt) :
    Cut false (executeAll options.strictly fuel stmts) (executeAll options.leniently fuel stmts)
      (momentsAll options.leniently fuel stmts) := by
  cases stmts with
  | nil =>
      rw [executeAll, executeAll]
      exact (silent_pure _).cut
  | cons first rest =>
      rw [executeAll, executeAll]
      exact (execute_cut options fuel first).bind fun _ => executeAll_cut options fuel rest

end

theorem getLast?_of_suffix {α : Type} {inner outer : List α} (suffix : inner <:+ outer)
    (nonempty : inner ≠ []) : outer.getLast? = inner.getLast? := by
  obtain ⟨before, rfl⟩ := suffix
  rw [List.getLast?_append, List.getLast?_eq_some_getLast nonempty, Option.some_or]

/-- A run that stops strictly with an error has recorded it first, and the lenient run goes on from
the same variables; otherwise both runs are the same and record nothing. -/
theorem strict_run_cut (options : Options) (fuel : Nat) (program : Program) {machine : Machine}
    (global : machine.scopes ≠ []) :
    match program.run options.strictly fuel machine with
    | .error (.error error) stopped =>
        ∃ before moment after,
          Job.moments ⟨options.leniently, fuel, program⟩ machine = before ++ moment :: after ∧
            (∀ earlier ∈ before, earlier.machine.errors = machine.errors) ∧
            moment.machine.errors = machine.errors.push error ∧
            moment.machine.globals = stopped.globals ∧
            stopped.errors = machine.errors.push error ∧
            (machine.errors.push error).toList <+:
              (reached (program.run options.leniently fuel machine)).errors.toList ∧
            ∀ label, stopped.written label <+:
              (reached (program.run options.leniently fuel machine)).written label
    | result =>
        program.run options.leniently fuel machine = result ∧
          (reached result).errors = machine.errors := by
  have same (options : Options) : program.run options fuel machine =
      changing (fun after => { after with scopes := machine.scopes.dropLast ++ after.scopes })
        (executeAll options fuel program.body
          { machine with scopes := machine.scopes.getLast?.toList }) := by
    unfold Program.run Machine.globally
    dsimp only
    cases executeAll options fuel program.body
      { machine with scopes := machine.scopes.getLast?.toList } <;> rfl
  rw [same, same]
  have outcome := (executeAll_cut options fuel program.body).outcome
    { machine with scopes := machine.scopes.getLast?.toList }
  have length := scopes_length_respected.executeAll options.strictly fuel program.body
    { machine with scopes := machine.scopes.getLast?.toList }
  change Outcome _ _ _ _ (Job.moments ⟨options.leniently, fuel, program⟩ machine) at outcome
  generalize strictly : executeAll options.strictly fuel program.body
    { machine with scopes := machine.scopes.getLast?.toList } = strictResult at outcome
  generalize leniently : executeAll options.leniently fuel program.body
    { machine with scopes := machine.scopes.getLast?.toList } = lenientResult at outcome
  generalize passed : Job.moments ⟨options.leniently, fuel, program⟩ machine = moments at outcome
  cases outcome with
  | done errors calm => exact ⟨rfl, errors⟩
  | @halted _ stop after _ other errors calm =>
      cases stop with
      | error error => exact absurd rfl (other error)
      | _ => exact ⟨rfl, errors⟩
  | @recorded _ error stopped _ before after moment calm records grows =>
      have single : stopped.scopes ≠ [] := by
        have one := length.of_error strictly
        intro none
        rw [none] at one
        rw [List.getLast?_eq_some_getLast global] at one
        cases one
      rw [reached_changing]
      refine ⟨before, moment, after, rfl, calm, records.errors, ?_, records.errorsStopped, ?_, ?_⟩
      · unfold Machine.globals
        rw [getLast?_of_suffix records.scopes single,
          getLast?_of_suffix (List.suffix_append _ stopped.scopes) single]
      · exact records.errors ▸ grows.errors
      · exact fun label => (records.written label).trans (grows.written label)

def readUndefined : Program :=
  ⟨[.define (text "a") .unknown (.str (text "b") .unknown) false .unknown,
    .eval (.name (text "x") .unknown) .unknown,
    .define (text "c") .unknown (.str (text "d") .unknown) false .unknown], .unknown⟩

theorem strict_run_cut_undefined :
    Machine.new.scopes ≠ [] ∧ ∃ before moment after,
      Job.moments ⟨⟨false, 0, none, none⟩, 1, readUndefined⟩ Machine.new =
          before ++ moment :: after ∧
        moment.machine.errors = #[⟨.undefined (text "x"), .unknown⟩] ∧
          moment.machine.globals = [(text "a", ⟨.str (text "b"), false⟩)] := by
  have global : Machine.new.scopes ≠ [] := List.cons_ne_nil _ _
  have cut := strict_run_cut ⟨false, 0, none, none⟩ 1 readUndefined global
  obtain ⟨before, moment, after, passed, _, errors, globals, _⟩ := cut
  exact ⟨global, before, moment, after, passed, errors, globals⟩

end Rover
