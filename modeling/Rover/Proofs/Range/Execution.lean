import Rover.Proofs.Range.Evaluation

namespace Rover

section Statements

variable {α : Type} {good : α → Prop} {moments : Machine → List Moment}

theorem Machine.InRange.moment {machine : Machine} (inRange : machine.InRange) {act : Act}
    (silent : ∀ value, act ≠ .evaluated value) : Moment.InRange ⟨act, machine⟩ :=
  ⟨inRange.bound, fun value same => absurd same (silent value)⟩

theorem Ranges.complete {action : Eval α} (ranges : Ranges good action moments) :
    Ranges good (Machine.complete action) fun machine =>
      moments { machine with orphans := [] } := by
  intro machine inRange sized
  obtain ⟨passed, leads⟩ := ranges { machine with orphans := [] } inRange.clear sized
  rw [leads_complete]
  exact ⟨passed, leads.mono (fun _ _ ended => ⟨ended.1.clear, ended.2⟩) fun _ _ ended =>
    ended.clear⟩

theorem Ranges.inScope {action : Eval Unit} (inner : Ranges (fun _ => True) action moments) :
    Ranges (fun _ => True) (Machine.inScope action) (momentsInside moments action) := by
  intro machine inRange sized
  obtain ⟨sizedInside, _⟩ := List.forall_mem_append.mp (List.forall_mem_cons.mp sized).2
  obtain ⟨passed, leads⟩ := inner { machine with scopes := [] :: machine.scopes } inRange.enter
    sizedInside
  have ends : Leads (Machine.inScope action) machine (fun _ after => after.InRange)
      (fun _ after => after.InRange) := by
    rw [leads_inScope]
    exact leads.mono (fun _ after ended => ended.1.narrow (List.tail_sublist after.scopes).subset)
      fun _ after ended => ended.narrow (List.tail_sublist after.scopes).subset
  have closed : (machine.after (Machine.inScope action)).2.InRange := by
    rw [after_eq_reached]
    exact leads_reached.mp ends
  refine ⟨List.forall_mem_cons.mpr ⟨inRange.enter.moment nofun, ?_⟩,
    ends.mono (fun _ _ ended => ⟨ended, trivial⟩) fun _ _ ended => ended⟩
  exact List.forall_mem_append.mpr
    ⟨passed, List.forall_mem_singleton.mpr (closed.moment nofun)⟩

theorem ranges_define (name : Text) {value : Value} (ranged : value.Ranged) (constant : Bool) :
    Ranges (fun _ => True) (Machine.define name value constant) fun after =>
      [⟨.defined name, { after with scopes := after.scopes.define name ⟨value, constant⟩ }⟩] := by
  intro machine inRange _
  have defined := inRange.define ranged.each name constant
  exact ⟨List.forall_mem_singleton.mpr (defined.moment nofun), defined, trivial⟩

theorem ranges_while {condition : Eval Value} {body : Eval Unit}
    {tested inside : Machine → List Moment} (test : Ranges Value.Ranged condition tested)
    (repeated : Ranges (fun _ => True) body inside) (fuel : Nat) :
    Ranges (fun _ => True) (repeatWhile condition body fuel)
      (momentsWhile condition body tested inside fuel) := by
  induction fuel with
  | zero => exact (stays_throw _).ranges
  | succ fuel ih =>
      refine test.bind fun value _ => ?_
      split
      · exact repeated.bind fun _ _ => ih
      · exact (stays_pure trivial).ranges

end Statements

mutual

theorem execute_ranges (options : Options) (fuel : Nat) {stmt : Stmt}
    (plain : Plain (partsAll stmt.exprs)) :
    Ranges (fun _ => True) (execute options fuel stmt) (stmt.moments options fuel) := by
  have complete {expr : Expr} (member : expr ∈ stmt.exprs) :
      Ranges Value.Ranged (Machine.complete (evaluate options expr))
        (momentsComplete options expr) :=
    (evaluate_ranges options expr (plain.mono (parts_subset_partsAll member))).complete
  cases stmt with
  | absent =>
      rw [execute]
      exact (stays_throw _).ranges
  | eval expr pos =>
      rw [execute]
      exact (complete List.mem_cons_self).seq fun _ _ => stays_pure trivial
  | block body pos =>
      rw [execute]
      exact (executeAll_ranges options fuel plain).inScope
  | define name namePos initial constant pos =>
      rw [execute]
      exact (complete List.mem_cons_self).bind fun value ranged =>
        ranges_define name ranged constant
  | cond condition body bodyPos otherwise pos =>
      have inside : Plain (partsAll (exprsAll body ++ otherwise.exprs)) :=
        plain.mono (List.subset_append_right _ _)
      rw [partsAll_append] at inside
      rw [execute]
      refine (complete List.mem_cons_self).bind fun value _ => ?_
      split
      · exact (executeAll_ranges options fuel (inside.mono (List.subset_append_left _ _))).inScope
      · split
        · exact (stays_pure trivial).ranges
        · exact execute_ranges options fuel (inside.mono (List.subset_append_right _ _))
  | loop condition body bodyPos pos =>
      rw [execute]
      exact ranges_while (complete List.mem_cons_self)
        (executeAll_ranges options fuel (plain.mono (List.subset_append_right _ _))).inScope fuel

theorem executeAll_ranges (options : Options) (fuel : Nat) {stmts : List Stmt}
    (plain : Plain (partsAll (exprsAll stmts))) :
    Ranges (fun _ => True) (executeAll options fuel stmts) (momentsAll options fuel stmts) := by
  cases stmts with
  | nil =>
      rw [executeAll]
      exact (stays_pure trivial).ranges
  | cons first rest =>
      rw [exprsAll, partsAll_append] at plain
      rw [executeAll]
      exact (execute_ranges options fuel (plain.mono (List.subset_append_left _ _))).bind fun _ _ =>
        executeAll_ranges options fuel (plain.mono (List.subset_append_right _ _))

end

theorem Job.ranges (job : Job) (plain : Plain (partsAll (exprsAll job.program.body)))
    {machine : Machine} (inRange : machine.InRange)
    (sized : ∀ moment ∈ job.moments machine, moment.Sized) :
    (∀ moment ∈ job.moments machine, moment.InRange) ∧ (machine.after job.action).2.InRange := by
  have outermost : machine.scopes.getLast?.toList ⊆ machine.scopes := fun scope member =>
    List.mem_of_getLast? (Option.mem_toList.mp member)
  obtain ⟨passed, leads⟩ :=
    executeAll_ranges job.options job.fuel plain _ (inRange.narrow outermost) sized
  refine ⟨passed, ?_⟩
  have inner := Value.EachIn.subset inRange.bound (Chain.values_subset (List.dropLast_subset _))
  have restored {after : Machine} (reached : after.InRange) :
      Machine.InRange { after with scopes := machine.scopes.dropLast ++ after.scopes } := by
    refine .of_parts ?_ reached.orphans
    rw [Chain.values, List.flatMap_append]
    exact inner.append reached.bound
  rw [after_eq_reached]
  apply leads_reached.mp
  unfold Job.action Program.run
  rw [leads_globally]
  exact leads.mono (fun _ _ ended => restored ended.1) fun _ _ ended => restored ended

theorem timeline_inRange {jobs : List Job}
    (parsed : ∀ job ∈ jobs, ∃ source, parse source = .ok job.program) {machine : Machine}
    (inRange : machine.InRange) (sized : ∀ moment ∈ timeline jobs machine, moment.Sized) :
    ∀ moment ∈ timeline jobs machine, moment.InRange := by
  induction jobs generalizing machine with
  | nil => exact List.forall_mem_singleton.mpr (inRange.moment nofun)
  | cons job rest ih =>
      obtain ⟨source, accepted⟩ := parsed job List.mem_cons_self
      obtain ⟨sizedFirst, sizedRest⟩ :=
        List.forall_mem_append.mp (List.forall_mem_cons.mp sized).2
      obtain ⟨passed, reached⟩ := job.ranges (parse_plain accepted) inRange sizedFirst
      refine List.forall_mem_cons.mpr
        ⟨inRange.moment nofun, List.forall_mem_append.mpr ⟨passed, ?_⟩⟩
      exact ih (fun job member => parsed job (List.mem_cons_of_mem _ member)) reached sizedRest

/-- Whatever sources are run, and however, as long as lengths have 64 bits: no variable ever holds a
negative integer and no expression yields one, arithmetic yields integers up to 99, and it is exact
on all integers that come up. -/
theorem integers_in_range {jobs : List Job}
    (parsed : ∀ job ∈ jobs, ∃ source, parse source = .ok job.program)
    (sized : ∀ moment ∈ timeline jobs Machine.new, moment.Sized) :
    (∀ moment ∈ timeline jobs Machine.new, moment.InRange) ∧
    (∀ options expr machine number after, Expr.IsArithmetic expr →
      evaluate options expr machine = .ok (.int number) after → Folded number) ∧
    ∀ first ∈ timeline jobs Machine.new, ∀ second ∈ timeline jobs Machine.new, ∀ left right,
      first.act = .evaluated (.int left) → second.act = .evaluated (.int right) →
        Exact left right := by
  have inRange := timeline_inRange parsed Machine.new_inRange sized
  refine ⟨inRange, ?_, ?_⟩
  · intro options expr machine number after arithmetic result
    exact (evaluate_folds options arithmetic machine).of_ok result number rfl
  · intro first firstPassed second secondPassed left right isLeft isRight
    exact exact_of_nonneg ((inRange first firstPassed).evaluated _ isLeft).1
      ((inRange second secondPassed).evaluated _ isRight).1

def negatedLength : Text := text "var a = [1, 2]; push(a, -length(a));"

theorem integers_in_range_negated : ∃ program, parse negatedLength = .ok program ∧
    (∀ moment ∈ timeline [⟨⟨true, 0, none, none⟩, 0, program⟩] Machine.new, moment.Sized) ∧
    ∀ moment ∈ timeline [⟨⟨true, 0, none, none⟩, 0, program⟩] Machine.new, moment.InRange := by
  have passes : (parse negatedLength).toOption.any (fun program =>
      ∀ moment ∈ timeline [⟨⟨true, 0, none, none⟩, 0, program⟩] Machine.new,
        moment.Sized) = true := by
    decide +kernel
  obtain ⟨program, accepted, passes⟩ := exists_parsed passes
  have sized := of_decide_eq_true passes
  have parsed : ∀ job ∈ [(⟨⟨true, 0, none, none⟩, 0, program⟩ : Job)],
      ∃ source, parse source = .ok job.program := by
    simpa using ⟨negatedLength, accepted⟩
  exact ⟨program, accepted, sized, (integers_in_range parsed sized).1⟩

end Rover
