import Rover.Proofs.Ownership.Evaluation
import Rover.Proofs.Respected
import Rover.Proofs.Timeline

/-!
What holds at every moment of a run: each array is held once, a value that was just computed is held
by no variable, and constants are what they were the moment before, unless their scope is closed or
their name defined again.
-/

namespace Rover

abbrev anyName : Text → Prop := fun _ => True

def Moment.Apart (moment : Moment) : Prop :=
  ∀ value, moment.act = .evaluated value → ∀ stamp ∈ value.stamps, stamp ∉ moment.machine.bound

def Passing (moments : Machine → List Moment) : Prop :=
  ∀ machine, machine.Sound → ∀ moment ∈ moments machine,
    machine.Evolves anyName moment.machine ∧ moment.Apart

section Passing

variable {α : Type} {moments : Machine → List Moment}

theorem passing_nil : Passing fun _ => [] := by
  intro machine _ moment member
  cases member

theorem Passing.append {others : Machine → List Moment} (first : Passing moments)
    (second : Passing others) : Passing fun machine => moments machine ++ others machine := by
  intro machine sound moment member
  rcases List.mem_append.mp member with inFirst | inSecond
  · exact first machine sound moment inFirst
  · exact second machine sound moment inSecond

theorem passing_onward {action : Eval α} {next : α → Machine → List Moment}
    {post : Machine → α → Machine → Prop}
    (keeps : ∀ machine, machine.Sound → Keeps anyName machine action machine (post machine))
    (passing : ∀ value, Passing (next value)) : Passing (onward action next) := by
  intro machine sound moment member
  unfold onward at member
  split at member
  · next value after result =>
      have reached := ((keeps machine sound).of_ok result).1
      obtain ⟨evolves, apart⟩ := passing value after reached.after moment member
      exact ⟨reached.trans evolves, apart⟩
  · cases member

theorem passing_value {action : Eval Value} (computes : Computes anyName action) :
    Passing (ending .evaluated action) := by
  intro machine sound moment member
  have keeps := computes machine sound
  unfold ending at member
  split at member
  · next value after result =>
      obtain ⟨evolves, freed⟩ := keeps.of_ok result
      rw [List.mem_singleton] at member
      subst member
      refine ⟨evolves, ?_⟩
      rintro _ ⟨⟩
      exact freed.free
  · next stop after result =>
      rw [List.mem_singleton] at member
      subst member
      exact ⟨keeps.of_error result, nofun⟩

theorem passing_place {root : Option Text} {action : Eval Located}
    (locates : Locates anyName root action) : Passing (ending .located action) := by
  intro machine sound moment member
  have keeps := locates machine sound
  unfold ending at member
  split at member
  · next value after result =>
      rw [List.mem_singleton] at member
      subst member
      exact ⟨(keeps.of_ok result).1, nofun⟩
  · next stop after result =>
      rw [List.mem_singleton] at member
      subst member
      exact ⟨keeps.of_error result, nofun⟩

theorem evaluate_keeps (options : Options) (expr : Expr) :
    Computes anyName (evaluate options expr) :=
  evaluate_computes options expr fun _ _ => trivial

theorem locate_keeps (options : Options) (expr : Expr) :
    Locates anyName expr.root? (locate options expr) :=
  locate_locates options expr fun _ _ => trivial

end Passing

mutual

theorem moments_passing (options : Options) (expr : Expr) : Passing (expr.moments options) := by
  have ends := passing_value (evaluate_keeps options expr)
  cases expr with
  | array elements pos =>
      exact (momentsEach_passing options elements).append ends
  | unary op operand pos =>
      exact (moments_passing options operand).append ends
  | binary op left right pos =>
      by_cases assigns : op = .assign
      · subst assigns
        have target := passing_onward (evaluate_keeps options right) fun _ =>
          searching_passing options left
        exact ((moments_passing options right).append target).append ends
      · have second := passing_onward (evaluate_keeps options left) fun _ =>
          moments_passing options right
        have both := ((moments_passing options left).append second).append ends
        intro machine
        rw [moments_binary options assigns]
        exact both machine
  | index array position pos =>
      refine Passing.append (.append (moments_passing options array)
        (passing_onward (evaluate_keeps options array) fun value => ?_)) ends
      cases value with
      | arr stamp elements => exact moments_passing options position
      | _ => exact passing_nil
  | call callee arguments pos =>
      by_cases named : ∃ name namePos, callee = .name name namePos
      · obtain ⟨callee, calleePos, rfl⟩ := named
        exact (momentsGiven_passing options _ arguments).append ends
      · intro machine
        rw [moments_call_other options fun name namePos same => named ⟨name, namePos, same⟩]
        exact ends machine
  | _ => exact ends

theorem momentsEach_passing (options : Options) (exprs : List Expr) :
    Passing (momentsEach options exprs) := by
  cases exprs with
  | nil => exact passing_nil
  | cons first rest =>
      exact (moments_passing options first).append
        (passing_onward (evaluate_keeps options first) fun _ => momentsEach_passing options rest)

theorem momentsGiven_passing (options : Options) (builtin : Option Builtin) (exprs : List Expr) :
    Passing (momentsGiven options builtin exprs) := by
  cases exprs with
  | nil => exact passing_nil
  | cons first others =>
      cases builtin with
      | none => exact passing_nil
      | some builtin =>
          cases builtin with
          | printf =>
              refine Passing.append (moments_passing options first)
                (passing_onward (evaluate_keeps options first) fun value => ?_)
              cases value with
              | str format => exact momentsFilling_passing options _ _ others
              | _ => exact passing_nil
          | length =>
              cases others with
              | nil => exact moments_passing options first
              | cons _ _ => exact passing_nil
          | pop =>
              cases others with
              | nil => exact searching_passing options first
              | cons _ _ => exact passing_nil
          | push =>
              match others with
              | [] => exact passing_nil
              | [value] =>
                  exact (moments_passing options value).append
                    (passing_onward (evaluate_keeps options value) fun _ =>
                      searching_passing options first)
              | _ :: _ :: _ => exact passing_nil

theorem momentsFilling_passing (options : Options) (pending : Text) (template : Template)
    (exprs : List Expr) : Passing (momentsFilling options pending template exprs) := by
  cases exprs with
  | nil => exact passing_nil
  | cons first others =>
      cases template with
      | hole before rest =>
          refine passing_onward (fun machine sound => keeps_write (.refl anyName sound) _ _)
            fun _ => ?_
          exact (moments_passing options first).append
            (passing_onward (evaluate_keeps options first) fun value =>
              momentsFilling_passing options value.printed rest others)
      | _ => exact passing_nil

theorem searching_passing (options : Options) (expr : Expr) :
    Passing (expr.searching options) := by
  have ends := passing_place (locate_keeps options expr)
  cases expr with
  | index array position pos =>
      refine Passing.append (.append (searching_passing options array)
        (passing_onward (locate_keeps options array) fun found => ?_)) ends
      cases found with
      | ok _ => exact moments_passing options position
      | error _ => exact passing_nil
  | call callee arguments pos =>
      by_cases named : ∃ name namePos, callee = .name name namePos
      · obtain ⟨callee, calleePos, rfl⟩ := named
        refine Passing.append ?_ ends
        by_cases isPush : callee = Builtin.push.name
        · simp only [isPush, if_true]
          exact momentsGiven_passing options _ arguments
        · simp only [isPush, if_false]
          exact passing_nil
      · intro machine
        rw [searching_call_other options fun name namePos same => named ⟨name, namePos, same⟩]
        exact ends machine
  | _ => exact ends

end

/-- A definition ends the earlier binding of the name in its scope, and closing a scope ends all
bindings in it. -/
def Moment.Ends (moment : Moment) (depth : Nat) (name : Text) : Prop :=
  match moment.act with
  | .defined other => other = name ∧ moment.machine.scopes.length = depth + 1
  | .closed => moment.machine.scopes.length ≤ depth
  | _ => False

def Machine.SameConstants (old new : Machine) : Prop :=
  ∀ (depth : Nat) (name : Text) (binding : Binding Value), binding.constant = true →
    (old.scopes.binding? depth name = some binding ↔ new.scopes.binding? depth name = some binding)

structure Moment.Follows (moment : Moment) (machine : Machine) : Prop where
  sound : moment.machine.Sound
  apart : moment.Apart
  constants : ∀ depth name binding, binding.constant = true → ¬moment.Ends depth name →
    machine.scopes.binding? depth name = some binding →
      moment.machine.scopes.binding? depth name = some binding

/-- Moments that follow one another, from a machine to another. -/
inductive Course : Machine → List Moment → Machine → Prop
  | nil {machine final : Machine} (same : machine.SameConstants final) (sound : final.Sound) :
      Course machine [] final
  | cons {machine final : Machine} {moment : Moment} {rest : List Moment}
      (follows : moment.Follows machine) (course : Course moment.machine rest final) :
      Course machine (moment :: rest) final

namespace Machine.SameConstants

variable {old middle new : Machine}

theorem refl (machine : Machine) : machine.SameConstants machine :=
  fun _ _ _ _ => Iff.rfl

theorem symm (same : old.SameConstants new) : new.SameConstants old :=
  fun depth name binding constant => (same depth name binding constant).symm

theorem trans (first : old.SameConstants middle) (second : middle.SameConstants new) :
    old.SameConstants new :=
  fun depth name binding constant =>
    (first depth name binding constant).trans (second depth name binding constant)

theorem of_evolved {next : Stamp} {may : Text → Prop}
    (evolved : old.scopes.Evolved next may new.scopes) : old.SameConstants new :=
  fun _ _ _ constant => evolved.binding?_constant constant

end Machine.SameConstants

namespace Course

variable {machine middle final : Machine} {moments others : List Moment}

theorem sound (course : Course machine moments final) : final.Sound := by
  induction course with
  | nil _ sound => exact sound
  | cons _ _ ih => exact ih

theorem since (same : machine.SameConstants middle) (course : Course middle moments final) :
    Course machine moments final := by
  cases course with
  | nil alike sound => exact .nil (same.trans alike) sound
  | cons follows course =>
      refine .cons ⟨follows.sound, follows.apart, ?_⟩ course
      intro depth name binding constant goesOn found
      exact follows.constants depth name binding constant goesOn
        ((same depth name binding constant).mp found)

theorem append (first : Course machine moments middle) (second : Course middle others final) :
    Course machine (moments ++ others) final := by
  induction first with
  | nil same _ => exact second.since same
  | cons follows _ ih => exact .cons follows (ih second)

theorem follows_of_mem (course : Course machine moments final) {moment : Moment}
    (member : moment ∈ moments) : ∃ earlier, moment.Follows earlier := by
  induction course with
  | nil => cases member
  | cons follows _ ih =>
      rcases List.mem_cons.mp member with rfl | later
      · exact ⟨_, follows⟩
      · exact ih later

/-- Moments of one evaluation follow one another in any order. -/
theorem of_same {start : Machine} (since : start.SameConstants machine)
    (each : ∀ moment ∈ moments,
      start.SameConstants moment.machine ∧ moment.machine.Sound ∧ moment.Apart)
    (same : start.SameConstants final) (sound : final.Sound) : Course machine moments final := by
  induction moments generalizing machine with
  | nil => exact .nil (since.symm.trans same) sound
  | cons moment rest ih =>
      obtain ⟨alike, momentSound, apart⟩ := each moment List.mem_cons_self
      refine .cons ⟨momentSound, apart, ?_⟩ ?_
      · intro depth name binding constant _ found
        exact (since.symm.trans alike depth name binding constant).mp found
      · exact ih alike fun other member => each other (List.mem_cons_of_mem _ member)

end Course

theorem Machine.Sound.define {machine start : Machine} (sound : machine.Sound) {value : Value}
    (freed : start.Frees machine value.stamps) (orphans : machine.orphans = []) (name : Text)
    (constant : Bool) :
    Machine.Sound { machine with scopes := machine.scopes.define name ⟨value, constant⟩ } := by
  have bound : Value.stampsAll machine.held = machine.bound := by
    rw [Machine.stampsAll_held, orphans, Value.stampsAll_nil, List.append_nil]
  have once : (machine.bound ++ value.stamps).Nodup := by
    refine List.nodup_append.mpr ⟨sound.bound_nodup, freed.once, ?_⟩
    intro stamp held other member same
    exact freed.free stamp (same ▸ member) held
  obtain ⟨dropped, perm⟩ := Chain.define_perm machine.scopes name ⟨value, constant⟩
  have stamps : Value.stampsAll (Machine.held { machine with
      scopes := machine.scopes.define name ⟨value, constant⟩ }) =
        Value.stampsAll (machine.scopes.define name ⟨value, constant⟩).values := by
    rw [Machine.held, orphans, List.append_nil]
  constructor
  · rw [stamps]
    exact (List.nodup_append.mp (perm.nodup_iff.mpr once)).1
  · intro stamp member
    rw [stamps] at member
    have either := perm.mem_iff.mp (List.mem_append_left dropped member)
    rcases List.mem_append.mp either with old | new
    · exact sound.bound_lt old
    · exact freed.below stamp new

def Proceeds {α : Type} (action : Eval α) (moments : Machine → List Moment) : Prop :=
  ∀ machine, machine.Sound → Leads action machine
    (fun _ after => Course machine (moments machine) after)
    (fun _ after => Course machine (moments machine) after)

section Proceeds

variable {α β : Type} {moments : Machine → List Moment}

theorem proceeds_pure (value : α) : Proceeds (pure value) fun _ => [] :=
  fun machine sound => .nil (.refl machine) sound

theorem proceeds_throw (stop : Stop) : Proceeds (throw stop : Eval α) fun _ => [] :=
  fun machine sound => .nil (.refl machine) sound

theorem proceeds_bind {action : Eval α} {next : α → Eval β}
    {others : α → Machine → List Moment} (first : Proceeds action moments)
    (second : ∀ value, Proceeds (next value) (others value)) :
    Proceeds (action >>= next) fun machine => moments machine ++ onward action others machine := by
  intro machine sound
  dsimp only
  rw [leads_bind]
  cases result : action machine with
  | ok value after =>
      have course := (first machine sound).of_ok result
      rw [leads_iff_of_ok result, onward_of_ok result]
      exact (second value after course.sound).mono (fun _ _ => course.append)
        fun _ _ => course.append
  | error stop after =>
      rw [leads_iff_of_error result, onward_of_error result, List.append_nil]
      exact (first machine sound).of_error result

theorem complete_course (options : Options) (expr : Expr) {machine : Machine}
    (sound : machine.Sound) :
    Leads (Machine.complete (evaluate options expr)) machine
      (fun value after => Course machine (momentsComplete options expr machine) after ∧
        after.orphans = [] ∧ machine.Frees after value.stamps)
      (fun _ after => Course machine (momentsComplete options expr machine) after) := by
  have cleared := sound.clear
  rw [leads_complete]
  have each : ∀ moment ∈ momentsComplete options expr machine,
      machine.SameConstants moment.machine ∧ moment.machine.Sound ∧ moment.Apart := by
    intro moment member
    obtain ⟨evolves, apart⟩ := moments_passing options expr _ cleared moment member
    exact ⟨.of_evolved evolves.scopes, evolves.after, apart⟩
  have course {after : Machine}
      (evolves : Machine.Evolves anyName { machine with orphans := [] } after) :
      Course machine (momentsComplete options expr machine) { after with orphans := [] } :=
    .of_same (.refl machine) each (.of_evolved evolves.scopes) evolves.after.clear
  apply Leads.mono (evaluate_keeps options expr _ cleared)
  · rintro value after ⟨evolves, freed⟩
    exact ⟨course evolves, rfl, freed.once, freed.below, freed.free, freed.owned⟩
  · exact fun _ after evolves => course evolves

theorem proceeds_complete (options : Options) (expr : Expr) :
    Proceeds (Machine.complete (evaluate options expr)) (momentsComplete options expr) :=
  fun _ sound => (complete_course options expr sound).mono (fun _ _ reached => reached.1)
    fun _ _ stopped => stopped

theorem proceeds_define (options : Options) (name : Text) (initial : Expr) (constant : Bool) :
    Proceeds (do
        let value ← Machine.complete (evaluate options initial)
        Machine.define name value constant)
      fun machine => momentsComplete options initial machine ++
        onward (Machine.complete (evaluate options initial)) (fun value after =>
          [⟨.defined name, { after with scopes := after.scopes.define name ⟨value, constant⟩ }⟩])
          machine := by
  intro machine sound
  dsimp only
  rw [leads_bind]
  have begins := complete_course options initial sound
  cases result : Machine.complete (evaluate options initial) machine with
  | ok value after =>
      obtain ⟨course, orphans, freed⟩ := begins.of_ok result
      rw [leads_iff_of_ok result, onward_of_ok result]
      have defined := course.sound.define freed orphans name constant
      refine course.append (.cons ⟨defined, nofun, ?_⟩ (.nil (.refl _) defined))
      intro depth other binding _ goesOn found
      rw [Chain.binding?_define, found]
      rintro ⟨same, length⟩
      exact goesOn ⟨same, (Chain.define_length _ _ _).trans length⟩
  | error stop after =>
      rw [leads_iff_of_error result, onward_of_error result, List.append_nil]
      exact begins.of_error result

theorem proceeds_inScope {action : Eval Unit} (inner : Proceeds action moments) :
    Proceeds (Machine.inScope action) (momentsInside moments action) := by
  intro machine sound
  have opened : Machine.Sound { machine with scopes := [] :: machine.scopes } :=
    sound.shrink (List.Sublist.refl _) (Nat.le_refl _)
  have begins : Moment.Follows ⟨.opened, { machine with scopes := [] :: machine.scopes }⟩
      machine := by
    refine ⟨opened, nofun, ?_⟩
    intro depth name binding _ _ found
    exact (Chain.binding?_cons (Chain.lt_of_binding? found)).trans found
  have ends {after : Machine}
      (course : Course { machine with scopes := [] :: machine.scopes }
        (moments { machine with scopes := [] :: machine.scopes }) after)
      (last : (machine.after (Machine.inScope action)).2 =
        { after with scopes := after.scopes.tail }) :
      Course machine (momentsInside moments action machine)
        { after with scopes := after.scopes.tail } := by
    have closed : Machine.Sound { after with scopes := after.scopes.tail } := course.sound.close
    rw [momentsInside, last]
    refine .cons begins (course.append (.cons ⟨closed, nofun, ?_⟩ (.nil (.refl _) closed)))
    intro depth name binding _ goesOn found
    exact (Chain.binding?_tail (Nat.not_le.mp goesOn)).trans found
  rw [leads_inScope]
  cases result : action { machine with scopes := [] :: machine.scopes } with
  | ok value after =>
      rw [leads_iff_of_ok result]
      apply ends ((inner _ opened).of_ok result)
      simp only [Machine.after, Machine.inScope, result]
  | error stop after =>
      rw [leads_iff_of_error result]
      apply ends ((inner _ opened).of_error result)
      simp only [Machine.after, Machine.inScope, result]

theorem proceeds_while {condition : Eval Value} {body : Eval Unit}
    {inside : Machine → List Moment} (tested : Proceeds condition moments)
    (repeated : Proceeds body inside) (fuel : Nat) :
    Proceeds (repeatWhile condition body fuel)
      (momentsWhile condition body moments inside fuel) := by
  induction fuel with
  | zero => exact proceeds_throw _
  | succ fuel ih =>
      refine proceeds_bind tested fun value => ?_
      split
      · exact proceeds_bind repeated fun _ => ih
      · exact proceeds_pure _

end Proceeds

mutual

theorem execute_proceeds (options : Options) (fuel : Nat) (stmt : Stmt) :
    Proceeds (execute options fuel stmt) (stmt.moments options fuel) := by
  cases stmt with
  | absent => exact proceeds_throw _
  | eval expr pos =>
      rw [execute]
      intro machine sound
      have course := proceeds_bind (proceeds_complete options expr)
        (fun _ => proceeds_pure ()) machine sound
      simp only [onward_nil, List.append_nil] at course
      exact course
  | block body pos =>
      rw [execute]
      exact proceeds_inScope (executeAll_proceeds options fuel body)
  | define name namePos initial constant pos =>
      rw [execute]
      exact proceeds_define options name initial constant
  | cond condition body bodyPos otherwise pos =>
      rw [execute]
      refine proceeds_bind (proceeds_complete options condition) fun value => ?_
      split
      · exact proceeds_inScope (executeAll_proceeds options fuel body)
      · split
        · exact proceeds_pure _
        · exact execute_proceeds options fuel otherwise
  | loop condition body bodyPos pos =>
      rw [execute]
      exact proceeds_while (proceeds_complete options condition)
        (proceeds_inScope (executeAll_proceeds options fuel body)) fuel

theorem executeAll_proceeds (options : Options) (fuel : Nat) (stmts : List Stmt) :
    Proceeds (executeAll options fuel stmts) (momentsAll options fuel stmts) := by
  cases stmts with
  | nil =>
      rw [executeAll]
      exact proceeds_pure _
  | cons first rest =>
      rw [executeAll]
      exact proceeds_bind (execute_proceeds options fuel first) fun _ =>
        executeAll_proceeds options fuel rest

end

theorem Job.course (job : Job) {machine : Machine} (sound : machine.Sound)
    (single : machine.scopes.length = 1) :
    Course machine (job.moments machine) (machine.after job.action).2 ∧
      (machine.after job.action).2.scopes.length = 1 := by
  obtain ⟨globals, scopes⟩ := List.length_eq_one_iff.mp single
  obtain ⟨chain, orphans, next, errors, events⟩ := machine
  change chain = [globals] at scopes
  subst scopes
  have proceeds := executeAll_proceeds job.options job.fuel job.program.body _ sound
  have length := scopes_length_respected.executeAll job.options job.fuel job.program.body
    ⟨[globals], orphans, next, errors, events⟩
  unfold Machine.after Job.action Program.run Machine.globally
  dsimp only [List.getLast?_singleton, Option.toList_some]
  cases result : executeAll job.options job.fuel job.program.body
      ⟨[globals], orphans, next, errors, events⟩ with
  | ok value after => exact ⟨proceeds.of_ok result, length.of_ok result⟩
  | error stop after => exact ⟨proceeds.of_error result, length.of_error result⟩

theorem timeline_course (jobs : List Job) {machine : Machine} (sound : machine.Sound)
    (single : machine.scopes.length = 1) :
    ∃ final, Course machine (timeline jobs machine) final := by
  have ready : Moment.Follows ⟨.ready, machine⟩ machine :=
    ⟨sound, nofun, fun _ _ _ _ _ found => found⟩
  induction jobs generalizing machine with
  | nil => exact ⟨machine, .cons ready (.nil (.refl machine) sound)⟩
  | cons job rest ih =>
      obtain ⟨course, length⟩ := job.course sound single
      obtain ⟨final, others⟩ := ih course.sound length
        ⟨course.sound, nofun, fun _ _ _ _ _ found => found⟩
      exact ⟨final, .cons ready (course.append others)⟩

end Rover
