import Rover.Proofs.Grammar.Spelled
import Rover.Proofs.Parts
import Rover.Proofs.Sizes
import Rover.Proofs.Strictness
import Rover.Proofs.Timeline.Ownership

/-!
How a run can end early. A tree that a source spells never asks for what cannot be run, and there is
one way only to lose an element that was about to be used: the index expression of a slot pops it
away after the place around the slot was found and before that place is read.
-/

namespace Rover

/-- In a run with the given moments, the search for a slot that is sought has found the place around
it, has then evaluated an index that contains a `pop`, and has crashed when it read that place. -/
inductive Lost (options : Options) (sought : Expr → Prop) (moments : List Moment) (crash : Crash) :
    Prop
  | intro {base position : Expr} {pos : Pos} {start between after : Machine} {place : Location}
      {value : Value} (slot : sought (.index base position pos)) (pops : position.pops = true)
      (passed : (Expr.index base position pos).searching options start <:+: moments)
      (found : locate options base start = .ok (.ok place) between)
      (evaluated : evaluate options position between = .ok value after)
      (gone : place.load after = .error (.crash crash) after)

def Stop.Allowed (options : Options) (lost : Crash → Prop) : Stop → Prop
  | .error _ => options.strict = true
  | .unsupported _ => False
  | .crash cause => lost cause
  | .outOfFuel => True

/-- An action that passes the given moments, seen from the machine where a larger one started. -/
def Runs {α : Type} (options : Options) (sought : Expr → Prop) (pops : Prop) (start : Machine)
    (action : Eval α) (machine : Machine) (moments : List Moment) (done : α → Machine → Prop) :
    Prop :=
  Leads action machine (fun value after => start.Lasts pops after ∧ done value after)
    (fun stop after => after.Whole ∧ stop.Allowed options (Lost options sought moments))

theorem Lost.within {options : Options} {sought : Expr → Prop} {moments longer : List Moment}
    {crash : Crash} (lost : Lost options sought moments crash) (inside : moments <:+: longer) :
    Lost options sought longer crash := by
  obtain ⟨slot, pops, passed, found, evaluated, gone⟩ := lost
  exact ⟨slot, pops, passed.trans inside, found, evaluated, gone⟩

theorem Stop.Allowed.mono {options : Options} {lost wider : Crash → Prop} {stop : Stop}
    (allowed : stop.Allowed options lost) (implies : ∀ crash, lost crash → wider crash) :
    stop.Allowed options wider := by
  cases stop with
  | crash cause => exact implies cause allowed
  | _ => exact allowed

section Runs

variable {α β : Type} {options : Options} {sought : Expr → Prop} {pops wider : Prop}
  {start middle machine : Machine} {moments longer : List Moment} {done : α → Machine → Prop}
  {action : Eval α}

theorem runs_pure {value : α} (lasts : start.Lasts pops machine) (holds : done value machine) :
    Runs options sought pops start (pure value) machine moments done :=
  ⟨lasts, holds⟩

theorem Runs.mono {final : α → Machine → Prop}
    (runs : Runs options sought pops start action machine moments done)
    (implies : ∀ value after, start.Lasts pops after → done value after → final value after) :
    Runs options sought pops start action machine moments final :=
  Leads.mono runs (fun value after ended => ⟨ended.1, implies value after ended.1 ended.2⟩)
    fun _ _ stopped => stopped

theorem Runs.within (runs : Runs options sought pops start action machine moments done)
    (inside : moments <:+: longer) :
    Runs options sought pops start action machine longer done :=
  Leads.mono runs (fun _ _ => id) fun _ _ stopped =>
    ⟨stopped.1, stopped.2.mono fun _ lost => lost.within inside⟩

theorem Runs.since (runs : Runs options sought pops middle action machine moments done)
    (lasts : start.Lasts wider middle) (implies : pops → wider) :
    Runs options sought wider start action machine moments done :=
  Leads.mono runs (fun _ _ ended => ⟨lasts.trans (ended.1.mono implies), ended.2⟩) fun _ _ => id

/-- What is known about the machines that an action reaches from its ownership of arrays. -/
theorem Runs.sound {may : Text → Prop} {post : α → Machine → Prop}
    (runs : Runs options sought pops start action machine moments done)
    (keeps : Keeps may machine action machine post) :
    Runs options sought pops start action machine moments fun value after =>
      after.Sound ∧ done value after := by
  unfold Runs Leads at runs ⊢
  cases result : action machine with
  | ok value after =>
      rw [result] at runs
      exact ⟨runs.1, (keeps.of_ok result).1.after, runs.2⟩
  | error stop after =>
      rw [result] at runs
      exact runs

theorem Runs.andThen {next : α → Eval β} {final : β → Machine → Prop}
    (first : Runs options sought pops start action machine moments done)
    (second : ∀ value after, action machine = .ok value after → start.Lasts pops after →
      done value after → Runs options sought pops start (next value) after moments final) :
    Runs options sought pops start (action >>= next) machine moments final := by
  unfold Runs
  rw [leads_bind]
  cases result : action machine with
  | ok value after =>
      obtain ⟨lasts, holds⟩ := first.of_ok result
      rw [leads_iff_of_ok result]
      exact second value after result lasts holds
  | error stop after =>
      rw [leads_iff_of_error result]
      exact first.of_error result

theorem Runs.bind {next : α → Eval β} {others : α → Machine → List Moment}
    {final : β → Machine → Prop}
    (first : Runs options sought pops start action machine moments done)
    (second : ∀ value after, action machine = .ok value after → start.Lasts pops after →
      done value after →
        Runs options sought pops start (next value) after (others value after) final) :
    Runs options sought pops start (action >>= next) machine
      (moments ++ onward action others machine) final := by
  refine (first.within (List.prefix_append _ _).isInfix).andThen ?_
  intro value after result lasts holds
  rw [onward_of_ok result]
  exact (second value after result lasts holds).within (List.suffix_append _ _).isInfix

theorem Runs.seq {next : α → Eval β} {final : β → Machine → Prop}
    (first : Runs options sought pops start action machine moments done)
    (second : ∀ value after, action machine = .ok value after → start.Lasts pops after →
      done value after → Runs options sought pops start (next value) after [] final) :
    Runs options sought pops start (action >>= next) machine moments final :=
  first.andThen fun value after result lasts holds =>
    (second value after result lasts holds).within (List.nil_infix)

end Runs

section Primitives

variable {options : Options} {sought : Expr → Prop} {pops : Prop} {start machine : Machine}
  {moments : List Moment}

theorem runs_kindOf {value : Value} (lasts : start.Lasts pops machine) (whole : value.Whole) :
    Runs options sought pops start (Machine.kindOf value) machine moments
      fun _ after => after = machine := by
  obtain ⟨kind, found⟩ := whole.kind?
  unfold Machine.kindOf
  rw [found]
  exact runs_pure lasts rfl

theorem runs_write (lasts : start.Lasts pops machine) (sound : machine.Sound)
    (writer : Option Writer) (bytes : Text) :
    Runs options sought pops start (Machine.write writer bytes) machine moments
      fun _ after => after.Sound := by
  obtain ⟨events, wrote, _⟩ := write_result writer bytes machine
  unfold Runs
  rw [leads_iff_of_ok wrote]
  exact ⟨lasts.of_held rfl, sound.once, sound.below⟩

theorem runs_flushing {action : Eval Value}
    (runs : Runs options sought pops start action machine moments fun value _ => value.Whole)
    (writer : Option Writer) :
    Runs options sought pops start (Machine.flushing writer action) machine moments
      fun value _ => value.Whole := by
  unfold Runs
  rw [leads_flushing]
  have held (after : Machine) : (after.flushed writer).held = after.held := by simp [Machine.held]
  apply Leads.mono runs
  · exact fun _ after ended => ⟨ended.1.of_held (held after), ended.2⟩
  · intro _ after stopped
    refine ⟨?_, stopped.2⟩
    unfold Machine.Whole
    rw [held]
    exact stopped.1

theorem runs_report (lasts : start.Lasts pops machine) (error : RuntimeError) :
    Runs options sought pops start (Machine.report options error) machine moments
      fun value _ => value.Whole := by
  unfold Runs Machine.report
  rw [leads_bind, leads_modify]
  have recorded : start.Lasts pops { machine with errors := machine.errors.push error } :=
    lasts.of_held rfl
  split
  · next strict => exact ⟨recorded.whole, strict⟩
  · obtain ⟨events, wrote, _⟩ := write_result options.diagnostics
      (text "runtime error: " ++ error.shown ++ text "\n")
      { machine with errors := machine.errors.push error }
    rw [leads_bind, leads_iff_of_ok wrote]
    exact ⟨lasts.of_held rfl, trivial⟩

theorem runs_fail (lasts : start.Lasts pops machine) (fault : Fault) (pos : Pos) :
    Runs options sought pops start (Machine.fail options fault pos) machine moments
      fun value _ => value.Whole :=
  runs_report lasts ⟨fault, pos⟩

theorem runs_misfit {value : Value} (lasts : start.Lasts pops machine) (whole : value.Whole)
    (fault : ValueKind → Fault) (pos : Pos) :
    Runs options sought pops start
      (do Machine.fail options (fault (← Machine.kindOf value)) pos) machine moments
      fun value _ => value.Whole :=
  (runs_kindOf lasts whole).seq fun _ _ _ lasts _ => runs_fail lasts _ _

theorem runs_copy {value : Value} (lasts : start.Lasts pops machine) (whole : value.Whole) :
    Runs options sought pops start (Machine.copy value) machine moments
      fun copied _ => copied.Whole :=
  ⟨lasts.of_held rfl, whole.copy machine.next⟩

theorem runs_checkIndex {elements : List Value} {pos : Pos} {index : Value}
    (lasts : start.Lasts pops machine) (whole : index.Whole) :
    Runs options sought pops start (checkIndex elements pos index) machine moments
      fun checked after => after = machine ∧
        ∀ position, checked = .ok position → position < elements.length := by
  unfold checkIndex
  split
  · next number =>
      split
      · next inside =>
          refine runs_pure lasts ⟨rfl, ?_⟩
          rintro position ⟨⟩
          omega
      · exact runs_pure lasts ⟨rfl, nofun⟩
  · exact (runs_kindOf lasts whole).seq fun _ _ _ lasts same => runs_pure lasts ⟨same, nofun⟩

theorem runs_load {location : Location} (lasts : start.Lasts pops machine) (sound : machine.Sound)
    (live : location.Live machine) :
    Runs options sought pops start location.load machine moments
      fun value after => after = machine ∧ value.Whole ∧
        ∀ stamp elements, value = .arr stamp elements → machine.array? stamp = some elements := by
  apply (Location.load_spec sound lasts.whole location).mono
  · rintro value after ⟨rfl, loaded⟩
    exact ⟨lasts, rfl, loaded⟩
  · exact fun _ _ stopped => absurd live stopped.2.1

theorem runs_store {location : Location} {value : Value} (lasts : start.Lasts pops machine)
    (sound : machine.Sound) (live : location.Live machine) (whole : value.Whole) :
    Runs options sought pops start (location.store value) machine moments fun _ _ => True := by
  have copied := whole.copy machine.next
  obtain ⟨place, constant, root⟩ := location
  unfold Runs
  cases place with
  | named name =>
      rw [leads_store_named]
      cases found : machine.scopes.find? name with
      | none => exact ⟨lasts.of_held rfl, trivial⟩
      | some binding =>
          dsimp only
          split
          · exact ⟨lasts.of_held rfl, trivial⟩
          · exact ⟨lasts.trans (Machine.lasts_set lasts.whole found copied _), trivial⟩
  | slot stamp index =>
      obtain ⟨elements, old, found, here⟩ := live.element sound
      rw [leads_store_slot, found, Option.getD_some, here]
      refine ⟨lasts.trans (Machine.lasts_modifyArray sound lasts.whole found [old] _ ?_ ?_ ?_ ?_),
        trivial⟩
      · intro items wholeItems
        refine Value.wholeAll_iff.mpr fun other member => ?_
        rcases List.mem_or_eq_of_mem_set member with kept | rfl
        · exact Value.wholeAll_iff.mp wholeItems other kept
        · exact copied
      · exact List.cons_subset.mpr ⟨List.mem_of_getElem? here, List.nil_subset _⟩
      · exact Value.subset_set here _
      · exact fun _ => Nat.le_of_eq List.length_set.symm

end Primitives

end Rover
