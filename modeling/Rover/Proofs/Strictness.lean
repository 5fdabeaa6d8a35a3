import Rover.Proofs.Respected
import Rover.Proofs.Timeline

/-!
A strict run is the lenient run cut at its first error. Both take the same steps until an error is
reported; the strict run ends there, and the lenient one goes on from a machine that holds the same
variables.
-/

namespace Rover

namespace Options

def strictly (options : Options) : Options := { options with strict := true }

def leniently (options : Options) : Options := { options with strict := false }

end Options

def Event.bytesAt (label : Text) : Event → Text
  | .wrote other bytes => if other = label then bytes else []
  | .flushed => []

def Machine.written (label : Text) (machine : Machine) : Text :=
  machine.events.toList.flatMap (Event.bytesAt label)

structure Machine.Grows (old new : Machine) : Prop where
  errors : old.errors.toList <+: new.errors.toList
  events : old.events.toList <+: new.events.toList

namespace Machine

variable {old middle new machine : Machine}

theorem Grows.of_eq (errors : new.errors = old.errors) (events : new.events = old.events) :
    old.Grows new :=
  ⟨errors ▸ List.prefix_rfl, events ▸ List.prefix_rfl⟩

theorem Grows.trans (first : old.Grows middle) (second : middle.Grows new) : old.Grows new :=
  ⟨first.errors.trans second.errors, first.events.trans second.events⟩

theorem Grows.written (grows : old.Grows new) (label : Text) :
    old.written label <+: new.written label := by
  obtain ⟨added, same⟩ := grows.events
  unfold Machine.written
  rw [← same, List.flatMap_append]
  exact List.prefix_append _ _

theorem grows_event (machine : Machine) (event : Event) :
    machine.Grows { machine with events := machine.events.push event } := by
  refine ⟨List.prefix_rfl, ?_⟩
  rw [Array.toList_push]
  exact List.prefix_append _ _

theorem grows_error (machine : Machine) (error : RuntimeError) :
    machine.Grows { machine with errors := machine.errors.push error } := by
  refine ⟨?_, List.prefix_rfl⟩
  rw [Array.toList_push]
  exact List.prefix_append _ _

theorem grows_respected : Respected Machine.Grows where
  refl _ := .of_eq rfl rfl
  trans := Grows.trans
  event := grows_event
  error := grows_error
  next _ _ _ := .of_eq rfl rfl
  orphans _ _ := .of_eq rfl rfl
  array _ _ _ := .of_eq rfl rfl
  set _ _ _ := .of_eq rfl rfl
  define _ _ _ := .of_eq rfl rfl
  scope _ _ grows := ⟨grows.errors, grows.events⟩

@[simp] theorem flushed_errors (writer : Option Writer) (machine : Machine) :
    (machine.flushed writer).errors = machine.errors := by
  unfold flushed
  split
  · split <;> rfl
  · rfl

@[simp] theorem flushed_written (writer : Option Writer) (label : Text) (machine : Machine) :
    (machine.flushed writer).written label = machine.written label := by
  unfold flushed
  split
  · split
    · simp [written, Event.bytesAt]
    · rfl
  · rfl

theorem grows_flushed (writer : Option Writer) (machine : Machine) :
    machine.Grows (machine.flushed writer) :=
  grows_respected.flushed writer machine

end Machine

def reached {α : Type} : EStateM.Result Stop Machine α → Machine
  | .ok _ machine => machine
  | .error _ machine => machine

theorem leads_reached {α : Type} {action : Eval α} {machine : Machine} {holds : Machine → Prop} :
    Leads action machine (fun _ => holds) (fun _ => holds) ↔ holds (reached (action machine)) := by
  unfold Leads
  cases action machine <;> rfl

theorem after_eq_reached {α : Type} (machine : Machine) (action : Eval α) :
    (machine.after action).2 = reached (action machine) := by
  unfold Machine.after
  cases action machine <;> rfl

/-- A machine that has just recorded the error with which the strict run stopped. -/
structure Records (machine stopped : Machine) (error : RuntimeError) (shown : Machine) : Prop where
  errorsStopped : stopped.errors = machine.errors.push error
  errors : shown.errors = machine.errors.push error
  scopes : stopped.scopes <:+ shown.scopes
  written : ∀ label, stopped.written label <+: shown.written label

def Calm (machine : Machine) (moments : List Moment) : Prop :=
  ∀ moment ∈ moments, moment.machine.errors = machine.errors

/-- The results of a strict and a lenient run, with the moments of the lenient one. An error that is
`pending` was recorded last of all, so that no moment shows it yet. -/
inductive Outcome (machine : Machine) {α : Type} : (pending : Bool) →
    (strict lenient : EStateM.Result Stop Machine α) → List Moment → Prop
  | done {pending : Bool} {value : α} {after : Machine} {moments : List Moment}
      (errors : after.errors = machine.errors) (calm : Calm machine moments) :
      Outcome machine pending (.ok value after) (.ok value after) moments
  | halted {pending : Bool} {stop : Stop} {after : Machine} {moments : List Moment}
      (other : ∀ error, stop ≠ .error error) (errors : after.errors = machine.errors)
      (calm : Calm machine moments) :
      Outcome machine pending (.error stop after) (.error stop after) moments
  | recorded {pending : Bool} {error : RuntimeError} {stopped : Machine}
      {lenient : EStateM.Result Stop Machine α} {before after : List Moment} {moment : Moment}
      (calm : Calm machine before) (records : Records machine stopped error moment.machine)
      (grows : moment.machine.Grows (reached lenient)) :
      Outcome machine pending (.error (.error error) stopped) lenient (before ++ moment :: after)
  | recording {error : RuntimeError} {stopped final : Machine} {value : α} {moments : List Moment}
      (calm : Calm machine moments) (records : Records machine stopped error final) :
      Outcome machine true (.error (.error error) stopped) (.ok value final) moments

/-- A strict action follows a lenient one until the first error. -/
structure Cut {α : Type} (pending : Bool) (strict lenient : Eval α)
    (moments : Machine → List Moment) : Prop where
  outcome : ∀ machine, Outcome machine pending (strict machine) (lenient machine) (moments machine)
  grows : Respects Machine.Grows lenient

structure Silent {α : Type} (action : Eval α) : Prop where
  errors : ∀ machine, Leads action machine (fun _ after => after.errors = machine.errors)
    (fun stop after => (∀ error, stop ≠ .error error) ∧ after.errors = machine.errors)
  grows : Respects Machine.Grows action

theorem calm_nil (machine : Machine) : Calm machine [] :=
  List.forall_mem_nil _

theorem Calm.append {machine : Machine} {first second : List Moment} (calm : Calm machine first)
    (more : Calm machine second) : Calm machine (first ++ second) := by
  intro moment member
  rcases List.mem_append.mp member with inFirst | inSecond
  · exact calm moment inFirst
  · exact more moment inSecond

theorem Calm.since {machine middle : Machine} {moments : List Moment}
    (same : middle.errors = machine.errors) (calm : Calm middle moments) : Calm machine moments :=
  fun moment member => (calm moment member).trans same

theorem Records.since {machine middle stopped shown : Machine} {error : RuntimeError}
    (same : middle.errors = machine.errors) (records : Records middle stopped error shown) :
    Records machine stopped error shown := by
  refine ⟨?_, ?_, records.scopes, records.written⟩
  · rw [records.errorsStopped, same]
  · rw [records.errors, same]

section Sequence

variable {α β : Type} {pending : Bool} {strict lenient : Eval α} {moments : Machine → List Moment}

theorem Outcome.after {machine middle : Machine} {strict lenient : EStateM.Result Stop Machine α}
    {first second : List Moment} (errors : middle.errors = machine.errors)
    (calm : Calm machine first) (outcome : Outcome middle pending strict lenient second) :
    Outcome machine pending strict lenient (first ++ second) := by
  cases outcome with
  | done same more => exact .done (same.trans errors) (calm.append (more.since errors))
  | halted other same more =>
      exact .halted other (same.trans errors) (calm.append (more.since errors))
  | recorded more records grows =>
      rw [← List.append_assoc]
      exact .recorded (calm.append (more.since errors)) (records.since errors) grows
  | recording more records =>
      exact .recording (calm.append (more.since errors)) (records.since errors)

theorem Outcome.since {machine middle : Machine} {strict lenient : EStateM.Result Stop Machine α}
    {moments : List Moment} (outcome : Outcome middle pending strict lenient moments)
    (errors : middle.errors = machine.errors) : Outcome machine pending strict lenient moments :=
  outcome.after errors (calm_nil machine)

theorem Cut.congr {others : Machine → List Moment} (cut : Cut pending strict lenient moments)
    (same : ∀ machine, moments machine = others machine) : Cut pending strict lenient others := by
  refine ⟨fun machine => ?_, cut.grows⟩
  rw [← same machine]
  exact cut.outcome machine

theorem Silent.cut {action : Eval α} (silent : Silent action) :
    Cut pending action action fun _ => [] := by
  refine ⟨fun machine => ?_, silent.grows⟩
  have errors := silent.errors machine
  cases result : action machine with
  | ok value after => exact .done (errors.of_ok result) (calm_nil machine)
  | error stop after =>
      obtain ⟨other, same⟩ := errors.of_error result
      exact .halted other same (calm_nil machine)

theorem Cut.bind {strictNext lenientNext : α → Eval β} {others : α → Machine → List Moment}
    (first : Cut false strict lenient moments)
    (second : ∀ value, Cut pending (strictNext value) (lenientNext value) (others value)) :
    Cut pending (strict >>= strictNext) (lenient >>= lenientNext)
      fun machine => moments machine ++ onward lenient others machine := by
  refine ⟨fun machine => ?_,
    Machine.grows_respected.bind first.grows fun value => (second value).grows⟩
  have begins := first.outcome machine
  generalize strictly : strict machine = strictResult at begins
  generalize leniently : lenient machine = lenientResult at begins
  generalize passed : moments machine = passing at begins
  cases begins with
  | done errors calm =>
      rw [bind_of_ok strictly, bind_of_ok leniently, onward_of_ok leniently]
      exact ((second _).outcome _).after errors calm
  | halted other errors calm =>
      rw [bind_of_error strictly, bind_of_error leniently, onward_of_error leniently,
        List.append_nil]
      exact .halted other errors calm
  | recorded calm records growing =>
      rw [bind_of_error strictly, List.append_assoc, List.cons_append]
      refine .recorded calm records ?_
      -- the lenient run goes on, and nothing that it does takes the error back
      cases lenientResult with
      | ok value after =>
          rw [bind_of_ok leniently]
          have onward := (second value).grows after
          cases result : lenientNext value after with
          | ok _ final => exact growing.trans (onward.of_ok result)
          | error _ final => exact growing.trans (onward.of_error result)
      | error stop after =>
          rw [bind_of_error leniently]
          exact growing

theorem Silent.bind {action : Eval α} {strictNext lenientNext : α → Eval β}
    {others : α → Machine → List Moment} (silent : Silent action)
    (second : ∀ value, Cut pending (strictNext value) (lenientNext value) (others value)) :
    Cut pending (action >>= strictNext) (action >>= lenientNext) (onward action others) := by
  have cut : Cut false action action fun _ => [] := silent.cut
  exact (cut.bind second).congr fun _ => List.nil_append _

theorem Cut.seq {strictNext lenientNext : α → Eval β} (first : Cut false strict lenient moments)
    (second : ∀ value, Cut pending (strictNext value) (lenientNext value) fun _ => []) :
    Cut pending (strict >>= strictNext) (lenient >>= lenientNext) moments :=
  (first.bind second).congr fun machine => by rw [onward_nil, List.append_nil]

theorem Silent.seq {action : Eval α} {strictNext lenientNext : α → Eval β} (silent : Silent action)
    (second : ∀ value, Cut pending (strictNext value) (lenientNext value) fun _ => []) :
    Cut pending (action >>= strictNext) (action >>= lenientNext) fun _ => [] := by
  have cut : Cut false action action fun _ => [] := silent.cut
  exact cut.seq second

/-- The end of an evaluation shows an error that it has recorded last. -/
theorem Cut.close (cut : Cut true strict lenient moments) (act : α → Act) :
    Cut false strict lenient fun machine => moments machine ++ ending act lenient machine := by
  refine ⟨fun machine => ?_, cut.grows⟩
  have outcome := cut.outcome machine
  generalize strictly : strict machine = strictResult at outcome
  generalize leniently : lenient machine = lenientResult at outcome
  generalize passed : moments machine = passing at outcome
  cases outcome with
  | done errors calm =>
      rw [ending_of_ok leniently]
      refine .done errors (calm.append fun moment member => ?_)
      rw [List.mem_singleton.mp member, errors]
  | halted other errors calm =>
      rw [ending_of_error leniently]
      refine .halted other errors (calm.append fun moment member => ?_)
      rw [List.mem_singleton.mp member, errors]
  | recorded calm records grows =>
      rw [List.append_assoc, List.cons_append]
      exact .recorded calm records grows
  | recording calm records =>
      rw [ending_of_ok leniently]
      exact .recorded calm records (.of_eq rfl rfl)

end Sequence

section Brackets

variable {α : Type} {pending : Bool} {strict lenient : Eval α} {moments : Machine → List Moment}

def changing (change : Machine → Machine) :
    EStateM.Result Stop Machine α → EStateM.Result Stop Machine α
  | .ok value after => .ok value (change after)
  | .error stop after => .error stop (change after)

structure Harmless (change : Machine → Machine) : Prop where
  errors : ∀ machine, (change machine).errors = machine.errors
  grows : ∀ machine : Machine, machine.Grows (change machine)
  written : ∀ label machine, (change machine).written label = machine.written label
  scopes : ∀ machine, (change machine).scopes <:+ machine.scopes

theorem flushing_eq_changing (writer : Option Writer) (action : Eval α) (machine : Machine) :
    Machine.flushing writer action machine =
      changing (Machine.flushed writer) (action machine) := by
  unfold Machine.flushing
  cases action machine <;> rfl

theorem complete_eq_changing (action : Eval α) (machine : Machine) :
    Machine.complete action machine =
      changing (fun after => { after with orphans := [] })
        (action { machine with orphans := [] }) := by
  unfold Machine.complete
  cases action { machine with orphans := [] } <;> rfl

theorem inScope_eq_changing (action : Eval α) (machine : Machine) :
    Machine.inScope action machine =
      changing (fun after => { after with scopes := after.scopes.tail })
        (action { machine with scopes := [] :: machine.scopes }) := by
  unfold Machine.inScope
  dsimp only
  cases action { machine with scopes := [] :: machine.scopes } <;> rfl

theorem reached_changing (change : Machine → Machine) (result : EStateM.Result Stop Machine α) :
    reached (changing change result) = change (reached result) := by
  cases result <;> rfl

theorem Outcome.change {machine : Machine} {strict lenient : EStateM.Result Stop Machine α}
    {moments : List Moment} {change : Machine → Machine}
    (outcome : Outcome machine pending strict lenient moments) (harmless : Harmless change)
    (kept : pending = true → ∀ machine, (change machine).scopes = machine.scopes) :
    Outcome machine pending (changing change strict) (changing change lenient) moments := by
  cases outcome with
  | done errors calm => exact .done ((harmless.errors _).trans errors) calm
  | halted other errors calm => exact .halted other ((harmless.errors _).trans errors) calm
  | recorded calm records grows =>
      refine .recorded calm ⟨?_, records.errors, ?_, ?_⟩ ?_
      · exact (harmless.errors _).trans records.errorsStopped
      · exact (harmless.scopes _).trans records.scopes
      · intro label
        rw [harmless.written]
        exact records.written label
      · rw [reached_changing]
        exact grows.trans (harmless.grows _)
  | recording calm records =>
      refine .recording calm ⟨?_, ?_, ?_, ?_⟩
      · exact (harmless.errors _).trans records.errorsStopped
      · exact (harmless.errors _).trans records.errors
      · rw [kept rfl, kept rfl]
        exact records.scopes
      · intro label
        rw [harmless.written, harmless.written]
        exact records.written label

theorem Cut.flushing (cut : Cut pending strict lenient moments) (writer : Option Writer) :
    Cut pending (Machine.flushing writer strict) (Machine.flushing writer lenient) moments := by
  refine ⟨fun machine => ?_,
    Machine.grows_respected.flushing (Machine.grows_flushed writer) cut.grows⟩
  have harmless : Harmless (Machine.flushed writer) :=
    ⟨Machine.flushed_errors writer, Machine.grows_flushed writer, Machine.flushed_written writer,
      fun machine => Machine.flushed_scopes writer machine ▸ List.suffix_rfl⟩
  rw [flushing_eq_changing, flushing_eq_changing]
  exact (cut.outcome machine).change harmless fun _ => Machine.flushed_scopes writer

theorem Cut.complete (cut : Cut false strict lenient moments) :
    Cut false (Machine.complete strict) (Machine.complete lenient)
      fun machine => moments { machine with orphans := [] } := by
  refine ⟨fun machine => ?_, Machine.grows_respected.complete cut.grows⟩
  have harmless : Harmless fun after => { after with orphans := [] } :=
    ⟨fun _ => rfl, fun _ => .of_eq rfl rfl, fun _ _ => rfl, fun _ => List.suffix_rfl⟩
  have outcome := (cut.outcome { machine with orphans := [] }).change harmless Bool.noConfusion
  rw [complete_eq_changing, complete_eq_changing]
  exact outcome.since rfl

end Brackets

section Silent

variable {α β : Type}

theorem crash_ne_error (cause : Crash) (error : RuntimeError) :
    Stop.crash cause ≠ .error error := by
  intro same
  cases same

theorem unsupported_ne_error (message : Text) (error : RuntimeError) :
    Stop.unsupported message ≠ .error error := by
  intro same
  cases same

theorem silent_pure (value : α) : Silent (pure value : Eval α) :=
  ⟨fun _ => rfl, Machine.grows_respected.pure value⟩

theorem silent_throw {stop : Stop} (other : ∀ error, stop ≠ .error error) :
    Silent (throw stop : Eval α) :=
  ⟨fun _ => ⟨other, rfl⟩, Machine.grows_respected.throw stop⟩

theorem silent_get : Silent (get : Eval Machine) :=
  ⟨fun _ => rfl, Machine.grows_respected.get⟩

theorem silent_bind {action : Eval α} {next : α → Eval β} (first : Silent action)
    (second : ∀ value, Silent (next value)) : Silent (action >>= next) := by
  refine ⟨fun machine => ?_,
    Machine.grows_respected.bind first.grows fun value => (second value).grows⟩
  rw [leads_bind]
  apply (first.errors machine).mono
  · intro value middle same
    exact ((second value).errors middle).mono (fun _ _ errors => errors.trans same)
      fun _ _ stopped => ⟨stopped.1, stopped.2.trans same⟩
  · exact fun _ _ stopped => stopped

theorem silent_kindOf (value : Value) : Silent (Machine.kindOf value) := by
  unfold Machine.kindOf
  split
  · exact silent_pure _
  · exact silent_throw (crash_ne_error _)

theorem silent_copy (value : Value) : Silent (Machine.copy value) :=
  ⟨fun _ => rfl, Machine.grows_respected.copy value⟩

theorem silent_newArray (elements : List Value) : Silent (Machine.newArray elements) :=
  ⟨fun _ => rfl, Machine.grows_respected.newArray elements⟩

theorem silent_orphan (value : Value) : Silent (Machine.orphan value) :=
  ⟨fun _ => rfl, Machine.grows_respected.orphan value⟩

theorem silent_modifyArray (stamp : Stamp) (change : List Value → List Value) :
    Silent (modify (Machine.modifyArray stamp change) : Eval PUnit) :=
  ⟨fun _ => rfl, fun machine => Machine.grows_respected.array machine stamp change⟩

theorem silent_load (location : Location) : Silent location.load := by
  refine ⟨fun machine => ?_, Machine.grows_respected.load location⟩
  obtain ⟨place, constant, root⟩ := location
  cases place with
  | named name => rfl
  | slot stamp index =>
      rw [leads_load_slot]
      split
      · rfl
      · exact ⟨crash_ne_error _, rfl⟩

theorem silent_store (location : Location) (value : Value) : Silent (location.store value) := by
  refine ⟨fun machine => ?_, Machine.grows_respected.store location value⟩
  obtain ⟨place, constant, root⟩ := location
  cases place with
  | named name =>
      rw [leads_store_named]
      split
      · rfl
      · split <;> rfl
  | slot stamp index =>
      rw [leads_store_slot]
      split
      · rfl
      · exact ⟨crash_ne_error _, rfl⟩

theorem write_result (writer : Option Writer) (bytes : Text) (machine : Machine) :
    ∃ events, Machine.write writer bytes machine = .ok () { machine with events } ∧
      machine.Grows { machine with events } := by
  unfold Machine.write
  split
  · split
    · exact ⟨machine.events, rfl, .of_eq rfl rfl⟩
    · exact ⟨_, rfl, Machine.grows_event machine _⟩
  · exact ⟨machine.events, rfl, .of_eq rfl rfl⟩

theorem silent_write (writer : Option Writer) (bytes : Text) :
    Silent (Machine.write writer bytes) := by
  refine ⟨fun machine => ?_, Machine.grows_respected.write writer bytes⟩
  obtain ⟨events, wrote, _⟩ := write_result writer bytes machine
  rw [leads_iff_of_ok wrote]

theorem silent_checkIndex (elements : List Value) (pos : Pos) (index : Value) :
    Silent (checkIndex elements pos index) := by
  unfold checkIndex
  split
  · split <;> exact silent_pure _
  · exact silent_bind (silent_kindOf _) fun _ => silent_pure _

theorem silent_named (name : Text) (pos : Pos) : Silent (Target.named name pos) := by
  refine silent_bind silent_get fun machine => ?_
  split <;> exact silent_pure _

end Silent

end Rover
