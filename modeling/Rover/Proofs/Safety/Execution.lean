import Rover.Proofs.Safety.Evaluation

/-!
What parses, runs. A run of a parsed program, after any runs of other parsed programs, never meets
anything that cannot be run, stops for an error only if it is strict, and crashes only where a
target is indexed with an expression that pops.
-/

namespace Rover

mutual

def Stmt.exprs : Stmt → List Expr
  | .absent => []
  | .eval expr _ => [expr]
  | .block body _ => exprsAll body
  | .define _ _ initial _ _ => [initial]
  | .cond condition body _ otherwise _ => condition :: (exprsAll body ++ otherwise.exprs)
  | .loop condition body _ _ => condition :: exprsAll body

def exprsAll : List Stmt → List Expr
  | [] => []
  | first :: rest => first.exprs ++ exprsAll rest

end

def Program.slots (program : Program) : List Expr :=
  (exprsAll program.body).flatMap Expr.slots

namespace Machine

variable {machine : Machine}

theorem new_whole : Machine.new.Whole :=
  trivial

theorem Whole.clear (whole : machine.Whole) : Whole { machine with orphans := [] } :=
  Value.WholeAll.subset whole machine.held_clear

theorem Whole.enter (whole : machine.Whole) :
    Whole { machine with scopes := [] :: machine.scopes } :=
  whole

theorem Whole.leave (whole : machine.Whole) :
    Whole { machine with scopes := machine.scopes.tail } :=
  Value.WholeAll.subset whole (machine.held_narrow (List.tail_sublist _).subset)

theorem Whole.define (whole : machine.Whole) {value : Value} (new : value.Whole) (name : Text)
    (constant : Bool) :
    Whole { machine with scopes := machine.scopes.define name ⟨value, constant⟩ } := by
  have both : Value.WholeAll (value :: machine.held) := ⟨new, whole⟩
  exact both.subset (machine.held_define name ⟨value, constant⟩)

end Machine

def Executes {α : Type} (options : Options) (sought : Expr → Prop) (action : Eval α)
    (moments : Machine → List Moment) (done : α → Prop) : Prop :=
  ∀ machine, machine.Sound → machine.Whole →
    Leads action machine (fun value after => after.Whole ∧ done value)
      (fun stop after => after.Whole ∧ stop.Allowed options (Lost options sought (moments machine)))

section Statements

variable {α β : Type} {options : Options} {sought : Expr → Prop} {action : Eval α}
  {moments : Machine → List Moment} {done : α → Prop}

theorem executes_pure {value : α} (holds : done value) :
    Executes options sought (pure value) moments done :=
  fun _ _ whole => ⟨whole, holds⟩

theorem Executes.bind {next : α → Eval β} {others : α → Machine → List Moment} {final : β → Prop}
    (first : Executes options sought action moments done) (proceeds : Proceeds action moments)
    (second : ∀ value, done value → Executes options sought (next value) (others value) final) :
    Executes options sought (action >>= next)
      (fun machine => moments machine ++ onward action others machine) final := by
  intro machine sound whole
  rw [leads_bind]
  cases result : action machine with
  | ok value after =>
      obtain ⟨wholeAfter, holds⟩ := (first machine sound whole).of_ok result
      have soundAfter := ((proceeds machine sound).of_ok result).sound
      rw [leads_iff_of_ok result]
      apply (second value holds after soundAfter wholeAfter).mono (fun _ _ => id)
      rintro stop last ⟨wholeLast, allowed⟩
      refine ⟨wholeLast, allowed.mono fun _ lost => lost.within ?_⟩
      dsimp only
      rw [onward_of_ok result]
      exact (List.suffix_append _ _).isInfix
  | error stop after =>
      obtain ⟨wholeAfter, allowed⟩ := (first machine sound whole).of_error result
      rw [leads_iff_of_error result]
      exact ⟨wholeAfter, allowed.mono fun _ lost => lost.within (List.prefix_append _ _).isInfix⟩

theorem executes_complete {expr : Expr} (spelled : expr.Spelled)
    (seeks : ∀ slot ∈ expr.slots, sought slot) :
    Executes options sought (Machine.complete (evaluate options expr))
      (momentsComplete options expr)
      Value.Whole := by
  intro machine sound whole
  have fits : Fits sought True expr.parts :=
    ⟨fun target member slot inside => seeks slot (List.mem_flatMap.mpr ⟨target, member, inside⟩),
      fun _ _ _ => trivial⟩
  rw [leads_complete]
  apply Leads.mono (evaluate_runs options spelled fits _ sound.clear whole.clear)
  · exact fun _ _ ended => ⟨ended.1.whole.clear, ended.2.2⟩
  · exact fun _ _ stopped => ⟨stopped.1.clear, stopped.2⟩

theorem executes_define {name : Text} {value : Value} {constant : Bool} (whole : value.Whole) :
    Executes options sought (Machine.define name value constant) moments fun _ => True :=
  fun _ _ wholeMachine => ⟨wholeMachine.define whole name constant, trivial⟩

theorem Executes.inScope {action : Eval Unit}
    (inner : Executes options sought action moments fun _ => True) :
    Executes options sought (Machine.inScope action) (momentsInside moments action)
      fun _ => True := by
  intro machine sound whole
  rw [leads_inScope]
  apply (inner { machine with scopes := [] :: machine.scopes } ⟨sound.once, sound.below⟩
    whole.enter).mono
  · exact fun _ _ ended => ⟨ended.1.leave, trivial⟩
  · rintro stop after ⟨wholeAfter, allowed⟩
    refine ⟨wholeAfter.leave, allowed.mono fun _ lost => lost.within ?_⟩
    exact List.infix_append [_] _ _

theorem executes_while {condition : Eval Value} {body : Eval Unit}
    {tested inside : Machine → List Moment}
    (test : Executes options sought condition tested Value.Whole)
    (testProceeds : Proceeds condition tested)
    (repeated : Executes options sought body inside fun _ => True)
    (bodyProceeds : Proceeds body inside) (fuel : Nat) :
    Executes options sought (repeatWhile condition body fuel)
      (momentsWhile condition body tested inside fuel) fun _ => True := by
  induction fuel with
  | zero => exact fun _ _ whole => ⟨whole, trivial⟩
  | succ fuel ih =>
      refine test.bind testProceeds fun value _ => ?_
      split
      · exact repeated.bind bodyProceeds fun _ _ => ih
      · exact executes_pure trivial

end Statements

mutual

theorem execute_executes (options : Options) (fuel : Nat) {sought : Expr → Prop} {stmt : Stmt}
    (spelled : stmt.Spelled) (seeks : ∀ expr ∈ stmt.exprs, ∀ slot ∈ expr.slots, sought slot) :
    Executes options sought (execute options fuel stmt) (stmt.moments options fuel)
      fun _ => True := by
  cases stmt with
  | absent => exact spelled.elim
  | eval expr pos =>
      rw [execute]
      intro machine sound whole
      have ends : Executes options sought (pure ()) (fun _ => []) fun _ => True :=
        executes_pure trivial
      have executed := (executes_complete spelled (seeks expr List.mem_cons_self)).bind
        (proceeds_complete options expr) (fun _ _ => ends) machine sound whole
      simp only [onward_nil, List.append_nil] at executed
      exact executed
  | block body pos =>
      rw [execute]
      exact (executeAll_executes options fuel spelled seeks).inScope
  | define name namePos initial constant pos =>
      rw [execute]
      exact (executes_complete spelled (seeks initial List.mem_cons_self)).bind
        (proceeds_complete options initial) fun value whole => executes_define whole
  | cond condition body bodyPos otherwise pos =>
      obtain ⟨conditionSpelled, bodySpelled, alternative⟩ := spelled
      rw [execute]
      refine (executes_complete conditionSpelled (seeks condition List.mem_cons_self)).bind
        (proceeds_complete options condition) fun value _ => ?_
      split
      · exact (executeAll_executes options fuel bodySpelled fun expr member =>
          seeks expr (List.mem_cons_of_mem _ (List.mem_append_left _ member))).inScope
      · rcases alternative with rfl | ⟨_, otherSpelled⟩
        · exact executes_pure trivial
        · split
          · exact executes_pure trivial
          · exact execute_executes options fuel otherSpelled fun expr member =>
              seeks expr (List.mem_cons_of_mem _ (List.mem_append_right _ member))
  | loop condition body bodyPos pos =>
      rw [execute]
      exact executes_while
        (executes_complete spelled.1 (seeks condition List.mem_cons_self))
        (proceeds_complete options condition)
        (executeAll_executes options fuel spelled.2 fun expr member =>
          seeks expr (List.mem_cons_of_mem _ member)).inScope
        (proceeds_inScope (executeAll_proceeds options fuel body)) fuel

theorem executeAll_executes (options : Options) (fuel : Nat) {sought : Expr → Prop}
    {stmts : List Stmt} (spelled : Stmt.SpelledAll stmts)
    (seeks : ∀ expr ∈ exprsAll stmts, ∀ slot ∈ expr.slots, sought slot) :
    Executes options sought (executeAll options fuel stmts) (momentsAll options fuel stmts)
      fun _ => True := by
  cases stmts with
  | nil =>
      rw [executeAll]
      exact executes_pure trivial
  | cons first rest =>
      rw [executeAll]
      exact (execute_executes options fuel spelled.1 fun expr member =>
        seeks expr (List.mem_append_left _ member)).bind (execute_proceeds options fuel first)
        fun _ _ => executeAll_executes options fuel spelled.2 fun expr member =>
          seeks expr (List.mem_append_right _ member)

end

/-- The machine after some programs, however they end. -/
def Machine.afterAll (machine : Machine) (jobs : List Job) : Machine :=
  jobs.foldl (fun machine job => (machine.after job.action).2) machine

theorem Job.executes (job : Job) (spelled : Stmt.SpelledAll job.program.body) {machine : Machine}
    (sound : machine.Sound) (whole : machine.Whole) (single : machine.scopes.length = 1) :
    Leads job.action machine (fun _ after => after.Whole) (fun stop after => after.Whole ∧
      stop.Allowed job.options
        (Lost job.options (· ∈ job.program.slots) (job.moments machine))) := by
  obtain ⟨globals, scopes⟩ := List.length_eq_one_iff.mp single
  obtain ⟨chain, orphans, next, errors, events⟩ := machine
  change chain = [globals] at scopes
  subst scopes
  have executes := executeAll_executes job.options job.fuel spelled
    (fun expr member slot inside => List.mem_flatMap.mpr ⟨expr, member, inside⟩)
    ⟨[globals], orphans, next, errors, events⟩ sound whole
  unfold Job.action Program.run
  rw [leads_globally]
  exact executes.mono (fun _ _ ended => ended.1) fun _ _ => id

/-- What every sequence of parsed programs leaves behind. -/
theorem afterAll_whole {jobs : List Job}
    (parsed : ∀ job ∈ jobs, ∃ source, parse source = .ok job.program) {machine : Machine}
    (sound : machine.Sound) (whole : machine.Whole) (single : machine.scopes.length = 1) :
    (machine.afterAll jobs).Sound ∧ (machine.afterAll jobs).Whole ∧
      (machine.afterAll jobs).scopes.length = 1 := by
  induction jobs generalizing machine with
  | nil => exact ⟨sound, whole, single⟩
  | cons job rest ih =>
      obtain ⟨source, accepted⟩ := parsed job List.mem_cons_self
      obtain ⟨course, length⟩ := job.course sound single
      have executed := job.executes (parse_spelled accepted) sound whole single
      have wholeAfter : (machine.after job.action).2.Whole := by
        rw [after_eq_reached]
        exact leads_reached.mp (executed.mono (fun _ _ => id) fun _ _ stopped => stopped.1)
      exact ih (fun job member => parsed job (List.mem_cons_of_mem _ member)) course.sound
        wholeAfter length

/-- After any parsed programs, the run of a parsed program that ends early ran out of rounds, met an
error in strict mode, or lost the slot of a target to a `pop` in its index. -/
theorem parsed_runs (earlier : List Job)
    (parsedBefore : ∀ job ∈ earlier, ∃ source, parse source = .ok job.program) (options : Options)
    (fuel : Nat) {source : Text} {program : Program} (parsed : parse source = .ok program) :
    (∀ stop after, program.run options fuel (Machine.new.afterAll earlier) = .error stop after →
      stop = .outOfFuel ∨ (∃ error, stop = .error error ∧ options.strict = true) ∨
        ∃ crash, stop = .crash crash ∧ Lost options (· ∈ program.slots)
          (Job.moments ⟨options, fuel, program⟩ (Machine.new.afterAll earlier)) crash) ∧
    ((∀ base position pos, .index base position pos ∈ program.slots → position.pops = false) →
      ∀ crash after, program.run options fuel (Machine.new.afterAll earlier) ≠
        .error (.crash crash) after) := by
  obtain ⟨sound, whole, single⟩ :=
    afterAll_whole parsedBefore Machine.new_sound Machine.new_whole rfl
  have executed := Job.executes ⟨options, fuel, program⟩ (parse_spelled parsed) sound whole single
  constructor
  · intro stop after ran
    have allowed := (executed.of_error ran).2
    cases stop with
    | error error => exact .inr (.inl ⟨error, rfl, allowed⟩)
    | unsupported message => exact allowed.elim
    | crash crash => exact .inr (.inr ⟨crash, rfl, allowed⟩)
    | outOfFuel => exact .inl rfl
  · intro unpopped crash after ran
    obtain ⟨slot, pops, _⟩ := (executed.of_error ran).2
    rw [unpopped _ _ _ slot] at pops
    cases pops

def nestedArrays : Text := text "var a = [[1], [2]];"

/-- The array at 1 is found, and then popped by the index into it. -/
def popsOwnSlot : Text := text "a[1][length(pop(a))] = 3;"

def Expr.spares : Expr → Bool
  | .index _ position _ => !position.pops
  | _ => true

def keepsOwnSlot : Text := text "a[1][0] = 3;"

theorem parsed_runs_popped :
    ∃ first popping keeping, parse nestedArrays = .ok first ∧
      parse popsOwnSlot = .ok popping ∧ parse keepsOwnSlot = .ok keeping ∧
      Lost ⟨true, 0, none, none⟩ (· ∈ popping.slots)
        (Job.moments ⟨⟨true, 0, none, none⟩, 0, popping⟩
          (Machine.new.afterAll [⟨⟨false, 0, none, none⟩, 0, first⟩])) (.lostElement 1 1) ∧
      ∀ crash after,
        keeping.run ⟨true, 0, none, none⟩ 0
            (Machine.new.afterAll [⟨⟨false, 0, none, none⟩, 0, first⟩]) ≠
          .error (.crash crash) after := by
  have passes : (parse nestedArrays).toOption.any (fun first =>
      (parse popsOwnSlot).toOption.any fun popping =>
        ((Machine.new.afterAll [⟨⟨false, 0, none, none⟩, 0, first⟩]).after
          (popping.run ⟨true, 0, none, none⟩ 0)).1 = some (.crash (.lostElement 1 1))) = true := by
    decide +kernel
  have spares : (parse keepsOwnSlot).toOption.any
      (fun keeping => keeping.slots.all Expr.spares) = true := by
    decide +kernel
  obtain ⟨first, parsedFirst, passes⟩ := exists_parsed passes
  obtain ⟨popping, parsedPopping, crashes⟩ := exists_parsed passes
  obtain ⟨keeping, parsedKeeping, spared⟩ := exists_parsed spares
  have before : ∀ job ∈ [(⟨⟨false, 0, none, none⟩, 0, first⟩ : Job)],
      ∃ source, parse source = .ok job.program := by
    simpa using ⟨nestedArrays, parsedFirst⟩
  refine ⟨first, popping, keeping, parsedFirst, parsedPopping, parsedKeeping, ?_, ?_⟩
  · have ends := of_decide_eq_true crashes
    unfold Machine.after at ends
    split at ends
    · cases ends
    · next stop after ran =>
        cases ends
        rcases (parsed_runs _ before ⟨true, 0, none, none⟩ 0 parsedPopping).1 _ after ran with
          same | ⟨_, same, _⟩ | ⟨crash, same, lost⟩
        · cases same
        · cases same
        · cases same
          exact lost
  · refine (parsed_runs _ before ⟨true, 0, none, none⟩ 0 parsedKeeping).2
      fun base position pos slot => ?_
    simpa [Expr.spares] using List.all_eq_true.mp spared _ slot

end Rover
