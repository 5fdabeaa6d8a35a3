import Rover.Proofs.Strictness.Execution

/-!
Every runtime error is reported once. What a run writes and what it records come from one log:
program output, flushes and errors. A lenient run writes a line for an error where it records it; a
strict run writes none, and what it records is the error that it ends with.
-/

namespace Rover

def RuntimeError.line (error : RuntimeError) : Text :=
  text "runtime error: " ++ error.shown ++ text "\n"

inductive Entry where
  | wrote (bytes : Text)
  | flushed
  | failed (error : RuntimeError)

namespace Entry

variable (options : Options)

def events : Entry → List Event
  | wrote bytes => options.output.toList.map fun writer => .wrote writer.label bytes
  | flushed => [.flushed]
  | failed error =>
      if options.strict then []
      else options.diagnostics.toList.map fun writer => .wrote writer.label error.line

def error? : Entry → Option RuntimeError
  | failed error => some error
  | wrote _ | flushed => none

def bytesAt (label : Text) (entry : Entry) : Text :=
  (entry.events options).flatMap (Event.bytesAt label)

end Entry

/-- The entries tell, in order, what was written and what was recorded from one machine to
another. -/
structure Logs (options : Options) (entries : List Entry) (old new : Machine) : Prop where
  events : new.events.toList = old.events.toList ++ entries.flatMap (Entry.events options)
  errors : new.errors.toList = old.errors.toList ++ entries.filterMap Entry.error?

namespace Logs

variable {options : Options} {old middle new : Machine} {entries more : List Entry}

theorem of_eq (events : new.events = old.events) (errors : new.errors = old.errors) :
    Logs options [] old new := by
  refine ⟨?_, ?_⟩
  · rw [events, List.flatMap_nil, List.append_nil]
  · rw [errors, List.filterMap_nil, List.append_nil]

theorem trans (first : Logs options entries old middle) (second : Logs options more middle new) :
    Logs options (entries ++ more) old new := by
  refine ⟨?_, ?_⟩
  · rw [second.events, first.events, List.flatMap_append, List.append_assoc]
  · rw [second.errors, first.errors, List.filterMap_append, List.append_assoc]

theorem written (logs : Logs options entries old new) (label : Text) :
    new.written label = old.written label ++ entries.flatMap (Entry.bytesAt options label) := by
  unfold Machine.written
  rw [logs.events, List.flatMap_append, List.flatMap_assoc]
  rfl

end Logs

abbrev Logged (options : Options) (old new : Machine) : Prop :=
  ∃ entries, Logs options entries old new

section Steps

variable (options : Options)

theorem logged_write (bytes : Text) :
    Respects (Logged options) (Machine.write options.output bytes) := by
  intro machine
  unfold Machine.write
  cases output : options.output with
  | none => exact ⟨[], .of_eq rfl rfl⟩
  | some writer =>
      dsimp only
      split
      · exact ⟨[], .of_eq rfl rfl⟩
      · refine ⟨[.wrote bytes], ?_, ?_⟩
        · simp [Entry.events, output]
        · simp [Entry.error?]

theorem logged_flushed (machine : Machine) :
    Logged options machine (machine.flushed options.output) := by
  unfold Machine.flushed
  split
  · split
    · refine ⟨[.flushed], ?_, ?_⟩
      · simp [Entry.events]
      · simp [Entry.error?]
    · exact ⟨[], .of_eq rfl rfl⟩
  · exact ⟨[], .of_eq rfl rfl⟩

theorem logged_report (error : RuntimeError) :
    Respects (Logged options) (Machine.report options error) := by
  intro machine
  unfold Machine.report
  rw [leads_bind]
  change Leads _ { machine with errors := machine.errors.push error } _ _
  split
  · next strict =>
      rw [leads_bind, leads_throw]
      refine ⟨[.failed error], ?_, ?_⟩
      · simp [Entry.events, strict]
      · simp [Entry.error?]
  · next lenient =>
      have visible : error.line.isEmpty = false := rfl
      rw [leads_bind, ← RuntimeError.line]
      unfold Machine.write
      rw [visible]
      cases diagnostics : options.diagnostics with
      | none =>
          refine ⟨[.failed error], ?_, ?_⟩
          · simp [Entry.events, diagnostics]
          · simp [Entry.error?]
      | some writer =>
          refine ⟨[.failed error], ?_, ?_⟩
          · simp [Entry.events, lenient, diagnostics]
          · simp [Entry.error?]

theorem logged_follows : Follows options (Logged options) where
  refl _ := ⟨[], .of_eq rfl rfl⟩
  trans := fun ⟨first, before⟩ ⟨second, after⟩ => ⟨first ++ second, before.trans after⟩
  next _ _ _ := ⟨[], .of_eq rfl rfl⟩
  orphans _ _ := ⟨[], .of_eq rfl rfl⟩
  array _ _ _ := ⟨[], .of_eq rfl rfl⟩
  set _ _ _ := ⟨[], .of_eq rfl rfl⟩
  write := logged_write options
  flushed := logged_flushed options
  report := logged_report options
  define _ _ _ := ⟨[], .of_eq rfl rfl⟩
  scope _ _ logged := logged.imp fun _ logs => ⟨logs.events, logs.errors⟩

theorem run_logged (fuel : Nat) (program : Program) (machine : Machine) :
    Logged options machine (reached (program.run options fuel machine)) := by
  apply leads_reached.mp
  rw [Program.run, leads_globally]
  exact ((logged_follows options).executeAll fuel program.body _).mono
    (fun _ _ logged => logged.imp fun _ logs => ⟨logs.events, logs.errors⟩)
    (fun _ _ logged => logged.imp fun _ logs => ⟨logs.events, logs.errors⟩)

end Steps

section Shown

variable {options : Options} {writer : Writer}

theorem flatMap_bytesAt {label : Text} {shown : RuntimeError → Text}
    (each : ∀ entry : Entry, entry.bytesAt options label = entry.error?.toList.flatMap shown)
    (entries : List Entry) :
    entries.flatMap (Entry.bytesAt options label) =
      (entries.filterMap Entry.error?).flatMap shown := by
  induction entries with
  | nil => rfl
  | cons entry rest ih =>
      rw [List.flatMap_cons, ih, each entry, List.filterMap_cons]
      cases entry.error? <;> simp

theorem bytesAt_wrote (apart : ∀ own, options.output = some own → own.label ≠ writer.label)
    (bytes : Text) : (Entry.wrote bytes).bytesAt options writer.label = [] := by
  cases output : options.output with
  | none => simp [Entry.bytesAt, Entry.events, output]
  | some own => simp [Entry.bytesAt, Entry.events, output, Event.bytesAt, apart own output]

theorem bytesAt_lenient (lenient : options.strict = false)
    (shows : options.diagnostics = some writer)
    (apart : ∀ own, options.output = some own → own.label ≠ writer.label) (entry : Entry) :
    entry.bytesAt options writer.label = entry.error?.toList.flatMap RuntimeError.line := by
  cases entry with
  | wrote bytes => exact bytesAt_wrote apart bytes
  | flushed => rfl
  | failed error => simp [Entry.bytesAt, Entry.events, Entry.error?, lenient, shows, Event.bytesAt]

theorem bytesAt_strict (strict : options.strict = true)
    (apart : ∀ own, options.output = some own → own.label ≠ writer.label) (entry : Entry) :
    entry.bytesAt options writer.label = entry.error?.toList.flatMap fun _ => [] := by
  cases entry with
  | wrote bytes => exact bytesAt_wrote apart bytes
  | flushed => rfl
  | failed error => simp [Entry.bytesAt, Entry.events, Entry.error?, strict]

end Shown

def returned? {α : Type} : EStateM.Result Stop Machine α → Option RuntimeError
  | .error (.error error) _ => some error
  | .error _ _ | .ok _ _ => none

theorem Outcome.returned {machine : Machine} {α : Type}
    {strict lenient : EStateM.Result Stop Machine α} {moments : List Moment}
    (outcome : Outcome machine false strict lenient moments) :
    (reached strict).errors.toList = machine.errors.toList ++ (returned? strict).toList := by
  cases outcome with
  | done errors _ => exact (congrArg Array.toList errors).trans (List.append_nil _).symm
  | @halted _ stop _ _ other errors _ =>
      cases stop with
      | error error => exact absurd rfl (other error)
      | _ => exact (congrArg Array.toList errors).trans (List.append_nil _).symm
  | recorded _ records _ =>
      exact (congrArg Array.toList records.errorsStopped).trans Array.toList_push

theorem strict_returned {options : Options} (strict : options.strict = true) (fuel : Nat)
    (program : Program) (machine : Machine) :
    (reached (program.run options fuel machine)).errors.toList =
      machine.errors.toList ++ (returned? (program.run options fuel machine)).toList := by
  have same : options.strictly = options := by rw [Options.strictly, ← strict]
  have outcome := (executeAll_cut options fuel program.body).outcome
    { machine with scopes := machine.scopes.getLast?.toList }
  rw [same] at outcome
  have returned := outcome.returned
  unfold Program.run Machine.globally
  dsimp only
  revert returned
  cases executeAll options fuel program.body
    { machine with scopes := machine.scopes.getLast?.toList } with
  | ok => exact id
  | error stop _ =>
      cases stop <;> exact id

/-- A run adds the errors of its log to those recorded before. In a lenient run the lines that tell
them are all that goes to a diagnostics writer of its own; in a strict run nothing goes there, and
the error that the run ends with, if it ends with one, is the one it recorded. -/
theorem errors_reported (options : Options) (fuel : Nat) (program : Program) (machine : Machine) :
    ∃ entries, Logs options entries machine (reached (program.run options fuel machine)) ∧
      (options.strict = true → entries.filterMap Entry.error? =
        (returned? (program.run options fuel machine)).toList) ∧
      ∀ writer, options.diagnostics = some writer →
        (∀ own, options.output = some own → own.label ≠ writer.label) →
          (reached (program.run options fuel machine)).written writer.label =
            machine.written writer.label ++
              if options.strict then []
              else (entries.filterMap Entry.error?).flatMap RuntimeError.line := by
  obtain ⟨entries, logs⟩ := run_logged options fuel program machine
  refine ⟨entries, logs, fun strict => ?_, fun writer shows apart => ?_⟩
  · have returned := strict_returned strict fuel program machine
    rw [logs.errors] at returned
    exact List.append_cancel_left returned
  · rw [logs.written]
    split
    · next strict =>
        rw [flatMap_bytesAt (bytesAt_strict strict apart)]
        simp
    · next lenient =>
        rw [flatMap_bytesAt (bytesAt_lenient (Bool.eq_false_iff.mpr lenient) shows apart)]

def watched : Options :=
  ⟨false, 0, some ⟨text "out", false⟩, some ⟨text "err", false⟩⟩

theorem errors_reported_undefined :
    (∀ own, watched.output = some own → own.label ≠ text "err") ∧
      (reached (readUndefined.run watched 1 .new)).written (text "err") =
        text "runtime error: 0:0: undefined variable 'x'\n" := by
  have apart : ∀ own, watched.output = some own → own.label ≠ text "err" := by
    intro own shows
    cases shows
    decide
  obtain ⟨entries, logs, _, written⟩ := errors_reported watched 1 readUndefined .new
  have recorded : entries.filterMap Entry.error? = [⟨.undefined (text "x"), .unknown⟩] :=
    logs.errors.symm
  have shown := written ⟨text "err", false⟩ rfl apart
  rw [recorded] at shown
  exact ⟨apart, shown⟩

end Rover
