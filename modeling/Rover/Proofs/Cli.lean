import Rover.Cli
import Rover.Proofs.Reporting
import Rover.Proofs.Safety.Execution
import Rover.Proofs.Session

/-!
The commands that take a source file: one runs its program, the other only checks that there is one.
Both load it in the same way, and what keeps one from it keeps the other from it.
-/

namespace Rover.Cli

/-- A program and the settings to run it with are loaded from the one file that the arguments name.
The files do not change while a command reads them. -/
inductive Loads [Config.Decoder] (files : Files Id) (directory : Text) (inFront after : Flags) :
    List Text → Settings → Program → Prop where
  | intro {path contents : Text} {settings : Settings} {program : Program}
      (configured : Settings.load files directory inFront after path = .ok settings)
      (named : path ≠ [])
      (read : files.read (Path.absolute directory path) = .ok contents)
      (parsed : parse contents = .ok program) :
      Loads files directory inFront after [path] settings program

/-- A report that tells on the error stream what was wrong, and nothing else. -/
def Report.Refuses (report : Report) : Prop :=
  ∃ (colored : Bool) (lines : List Text),
    report = ⟨lines.map (Session.complaint colored), .exit 1⟩

theorem refused_refuses (message : Text) : (refused message).Refuses :=
  ⟨false, [message ++ text "\n"], rfl⟩

section Loading

variable {files : Files Id} {directory path : Text} {inFront after : Flags} {arguments : List Text}
  {settings : Settings} {program : Program} {source : Source} {action : Action}
  {use : Settings → Program → Report}

theorem source_load (named : path ≠ []) :
    Source.load files directory path =
      match files.read (Path.absolute directory path) with
      | .error error => .error (.unread path (.ofRead (Path.absolute directory path) error))
      | .ok contents =>
          match parse contents with
          | .ok program => .ok ⟨path, contents, program⟩
          | .error diagnostics => .error (.rejected path diagnostics) := by
  unfold Source.load
  exact if_neg (by simpa using named)

theorem withSource_path [Config.Decoder] :
    withSource files directory ⟨action, inFront, after, [path]⟩ use =
      match Settings.load files directory inFront after path with
      | .error error => unloadable error
      | .ok settings =>
          match Source.load files directory path with
          | .ok source => use settings source.program
          | .error error =>
              ⟨error.lines.map fun line =>
                Session.complaint settings.colored (line ++ text "\n"), .exit 1⟩ :=
  rfl

theorem withSource_of_loads [Config.Decoder]
    (loads : Loads files directory inFront after arguments settings program) :
    withSource files directory ⟨action, inFront, after, arguments⟩ use = use settings program := by
  obtain ⟨configured, named, read, parsed⟩ := loads
  have loaded : Source.load files directory _ = _ := source_load named
  rw [read] at loaded
  dsimp only at loaded
  rw [parsed] at loaded
  rw [withSource_path, configured]
  dsimp only
  rw [loaded]

theorem loads_of_source [Config.Decoder] {source : Source}
    (configured : Settings.load files directory inFront after path = .ok settings)
    (loaded : Source.load files directory path = .ok source) :
    Loads files directory inFront after [path] settings source.program := by
  by_cases named : path = []
  · subst named
    cases loaded
  · rw [source_load named] at loaded
    split at loaded
    · cases loaded
    · next contents read =>
        split at loaded
        · next program parsed =>
            cases loaded
            exact .intro configured named read parsed
        · cases loaded

theorem withSource_of_not_loads [Config.Decoder]
    (fails : ∀ settings program, ¬ Loads files directory inFront after arguments settings program) :
    ∃ report : Report, report.Refuses ∧ ∀ action use,
      withSource files directory ⟨action, inFront, after, arguments⟩ use = report := by
  match arguments with
  | [] => exact ⟨_, refused_refuses _, fun _ _ => rfl⟩
  | _ :: _ :: _ => exact ⟨_, refused_refuses _, fun _ _ => rfl⟩
  | [path] =>
      cases configured : Settings.load files directory inFront after path with
      | error error =>
          refine ⟨unloadable error, refused_refuses _, fun action use => ?_⟩
          rw [withSource_path, configured]
      | ok settings =>
          cases loaded : Source.load files directory path with
          | ok source => exact absurd (loads_of_source configured loaded) (fails _ _)
          | error error =>
              refine ⟨⟨error.lines.map fun line =>
                Session.complaint settings.colored (line ++ text "\n"), .exit 1⟩,
                ⟨settings.colored, error.lines.map (· ++ text "\n"), ?_⟩, fun action use => ?_⟩
              · rw [List.map_map]
                rfl
              · rw [withSource_path, configured]
                dsimp only
                rw [loaded]

theorem not_loads_of_error [Config.Decoder] {contents : Text} {diagnostics : List Diagnostic}
    (read : files.read (Path.absolute directory path) = .ok contents)
    (rejected : parse contents = .error diagnostics) :
    ¬ Loads files directory inFront after [path] settings program := by
  rintro ⟨_, _, readThen, parsed⟩
  cases read.symm.trans readThen
  cases rejected.symm.trans parsed

end Loading

/-- The same arguments ask for a check and for a run. -/
theorem request_check_iff [FlagReader] (inFront after : Flags) (given arguments : List Text) :
    Command.check.request inFront given = .task ⟨.check, inFront, after, arguments⟩ ↔
      Command.run.request inFront given = .task ⟨.run, inFront, after, arguments⟩ := by
  have sameFlags : Command.check.ownFlags = Command.run.ownFlags := rfl
  unfold Command.request
  rw [sameFlags]
  dsimp only
  generalize FlagReader.read (Command.run.ownFlags ++ helpFlags) (flagsFirst given) = reading
  cases bothForms? reading.settings with
  | some error => exact ⟨nofun, nofun⟩
  | none =>
      cases reading.error with
      | some error => exact ⟨nofun, nofun⟩
      | none =>
          cases asksHelp reading.settings with
          | true => exact ⟨nofun, nofun⟩
          | false => simp

section Output

variable (label held : Text)

theorem put_append (bytes : Text) :
    (Buffer.put held bytes).1 ++ (Buffer.put held bytes).2 = held ++ bytes := by
  unfold Buffer.put
  dsimp only
  split
  · exact List.nil_append _
  · split
    · exact List.append_nil _
    · exact List.take_append_drop _ _

theorem bytesAt_release (other : Text) :
    (Buffer.release label held).flatMap (Event.bytesAt other) =
      if label = other then held else [] := by
  cases held with
  | nil => simp [Buffer.release]
  | cons byte rest => simp [Buffer.release, Event.bytesAt]

/-- What is held back is neither lost nor moved within its stream. -/
theorem bytesAt_through (events : List Event) (other : Text) :
    (Buffer.through label held events).flatMap (Event.bytesAt other) =
      (if label = other then held else []) ++ events.flatMap (Event.bytesAt other) := by
  induction events generalizing held with
  | nil => rw [Buffer.through, bytesAt_release, List.flatMap_nil, List.append_nil]
  | cons event rest ih =>
      cases event with
      | flushed =>
          rw [Buffer.through, List.flatMap_append, bytesAt_release, ih, ite_self]
          rfl
      | wrote own bytes =>
          rw [Buffer.through, List.flatMap_cons]
          split
          · next same =>
              subst same
              rw [List.flatMap_append, bytesAt_release, ih, ← List.append_assoc,
                ← List.append_assoc]
              refine congrArg (· ++ _) ?_
              by_cases same : own = other
              · simp only [if_pos same, put_append, Event.bytesAt]
              · simp [if_neg same, Event.bytesAt]
          · next differs =>
              rw [List.flatMap_cons, ih, ← List.append_assoc, ← List.append_assoc]
              refine congrArg (· ++ _) ?_
              by_cases same : label = other
              · have apart : own ≠ other := fun equal => differs (equal.trans same.symm)
                simp [Event.bytesAt, apart]
              · simp [if_neg same]

end Output

/-- All output of a program gets to the output stream, however its run ends. -/
theorem runProgram_output (settings : Settings) (fuel : Nat) (program : Program) :
    (runProgram settings fuel program).events.flatMap (Event.bytesAt outputLabel) =
      (Machine.new.after (program.run (runOptions settings) fuel)).2.written outputLabel := by
  have apart : errorLabel ≠ outputLabel := by decide
  have passed (machine : Machine) : (Buffer.through outputLabel []
      (machine.events.toList.map (Session.paint settings.colored))).flatMap
        (Event.bytesAt outputLabel) = machine.written outputLabel := by
    rw [bytesAt_through, if_pos rfl, List.nil_append, List.flatMap_map, Machine.written]
    simp only [bytesAt_paint]
  unfold runProgram
  dsimp only
  generalize Machine.new.after _ = ran
  obtain ⟨stop, machine⟩ := ran
  cases stop with
  | none => exact passed machine
  | some stop =>
      cases stop with
      | crash => exact passed machine
      | _ => simp [passed, Session.complaint, Event.bytesAt, apart]

theorem runProgram_ending (settings : Settings) (fuel : Nat) (program : Program) :
    (runProgram settings fuel program).ending =
      match (Machine.new.after (program.run (runOptions settings) fuel)).1 with
      | none => .exit 0
      | some (.crash crash) => .crash (.crash crash)
      | some _ => .exit 1 := by
  unfold runProgram
  dsimp only
  generalize Machine.new.after _ = ran
  obtain ⟨stop, machine⟩ := ran
  cases stop with
  | none => rfl
  | some stop => cases stop <;> rfl

theorem ending_runProgram {contents : Text} {program : Program}
    (parsed : parse contents = .ok program)
    (settings : Settings) (fuel : Nat)
    (ends : (Machine.new.after (program.run (runOptions settings) fuel)).1 ≠ some .outOfFuel)
    (survives : ∀ crash,
      (Machine.new.after (program.run (runOptions settings) fuel)).1 ≠ some (.crash crash)) :
    (runProgram settings fuel program).ending =
      .exit (if settings.strict = true ∧
          (Machine.new.after (program.run (runOptions settings) fuel)).2.errors ≠ #[]
        then 1 else 0) := by
  have executed := Job.executes ⟨runOptions settings, fuel, program⟩ (parse_spelled parsed)
    Machine.new_sound Machine.new_whole rfl
  have returned (strict : (runOptions settings).strict = true) :=
    strict_returned strict fuel program .new
  rw [runProgram_ending]
  unfold Machine.after at ends survives ⊢
  cases ran : program.run (runOptions settings) fuel Machine.new with
  | ok _ after =>
      rw [ran] at returned
      dsimp only
      have clean (strict : settings.strict = true) : after.errors = #[] :=
        Array.toList_eq_nil_iff.mp (returned strict)
      have passed : ¬ (settings.strict = true ∧ after.errors ≠ #[]) :=
        fun ⟨strict, met⟩ => met (clean strict)
      rw [if_neg passed]
  | error stop after =>
      rw [ran] at returned ends survives
      have allowed := (executed.of_error ran).2
      cases stop with
      | error error =>
          have strict : settings.strict = true := allowed
          have met : after.errors ≠ #[] := by
            intro none
            have recorded := returned strict
            change after.errors.toList = [error] at recorded
            rw [none] at recorded
            cases recorded
          dsimp only
          rw [if_pos ⟨strict, met⟩]
      | unsupported message => exact allowed.elim
      | crash crash => exact absurd rfl (survives crash)
      | outOfFuel => exact absurd rfl ends

/-- A check succeeds exactly where a run gets to its program, which then is that of the whole file.
Where there is none, both tell what is wrong in the same way and do nothing else. -/
theorem check_agrees [Config.Decoder] [FlagReader] (files : Files Id) (fuel : Nat)
    (surroundings : Surroundings) (inFront after : Flags) (arguments : List Text) :
    let check := perform files fuel surroundings ⟨.check, inFront, after, arguments⟩
    let run := perform files fuel surroundings ⟨.run, inFront, after, arguments⟩
    let loads := Loads files surroundings.directory inFront after arguments
    (∀ given, Command.check.request inFront given = .task ⟨.check, inFront, after, arguments⟩ ↔
      Command.run.request inFront given = .task ⟨.run, inFront, after, arguments⟩) ∧
    (∀ settings program, loads settings program →
      check = .finished (shown (text "ok\n") 0) ∧
      run = .finished (runProgram settings fuel program) ∧
      let ran := Machine.new.after (program.run (runOptions settings) fuel)
      (runProgram settings fuel program).events.flatMap (Event.bytesAt outputLabel) =
        ran.2.written outputLabel ∧
      (ran.1 ≠ some .outOfFuel → (∀ crash, ran.1 ≠ some (.crash crash)) →
        (runProgram settings fuel program).ending =
          .exit (if settings.strict = true ∧ ran.2.errors ≠ #[] then 1 else 0))) ∧
    ((∀ settings program, ¬ loads settings program) →
      ∃ report, report.Refuses ∧ check = .finished report ∧ run = .finished report) ∧
    ∀ path contents diagnostics, arguments = [path] →
      files.read (Path.absolute surroundings.directory path) = .ok contents →
      parse contents = .error diagnostics → ∀ settings program, ¬ loads settings program := by
  intro check run loads
  refine ⟨fun given => request_check_iff inFront after given arguments, ?_, ?_, ?_⟩
  · intro settings program loaded
    refine ⟨congrArg Outcome.finished (withSource_of_loads loaded),
      congrArg Outcome.finished (withSource_of_loads loaded), ?_⟩
    obtain ⟨_, _, _, parsed⟩ := loaded
    exact ⟨runProgram_output settings fuel program, ending_runProgram parsed settings fuel⟩
  · intro fails
    obtain ⟨report, refuses, same⟩ := withSource_of_not_loads fails
    exact ⟨report, refuses, congrArg Outcome.finished (same .check _),
      congrArg Outcome.finished (same .run _)⟩
  · rintro path contents diagnostics rfl read rejected settings program
    exact not_loads_of_error read rejected

def twoContents (path : Text) : Except FileError Text :=
  if path = text "/a.rv" then .ok (text "printf(\"a\"); b;")
  else if path = text "/b.rv" then .ok (text "printf(\"a\"); b")
  else .error .notFound

def twoFiles : Files Id := ⟨fun _ => .error .notFound, twoContents, fun _ _ => false⟩

def strictly : Flags := ⟨none, some true, none, none⟩

theorem check_agrees_undefined :
    ∃ settings program,
      Loads twoFiles (text "/") strictly strictly [text "a.rv"] settings program ∧
        perform twoFiles 0 ⟨text "/", none, false⟩ ⟨.check, strictly, strictly, [text "a.rv"]⟩ =
          .finished (shown (text "ok\n") 0) ∧
        (runProgram settings 0 program).ending = .exit 1 ∧
        ∃ report, report.Refuses ∧
          perform twoFiles 0 ⟨text "/", none, false⟩ ⟨.run, strictly, strictly, [text "b.rv"]⟩ =
            .finished report := by
  have passes : (Settings.load twoFiles (text "/") strictly strictly (text "a.rv")).toOption.any
      (fun settings => (parse (text "printf(\"a\"); b;")).toOption.any fun program =>
        let ran := Machine.new.after (program.run (runOptions settings) 0)
        settings.strict && ran.2.errors ≠ #[] &&
          ran.1 = some (.error ⟨.undefined (text "b"), ⟨1, 14⟩⟩)) =
      true := by
    decide +kernel
  cases configured : Settings.load twoFiles (text "/") strictly strictly (text "a.rv") with
  | error error =>
      rw [configured] at passes
      cases passes
  | ok settings =>
      rw [configured] at passes
      obtain ⟨program, parsed, meets⟩ := exists_parsed passes
      simp only [Bool.and_eq_true, decide_eq_true_eq] at meets
      obtain ⟨⟨strict, errors⟩, stops⟩ := meets
      have read : twoContents (Path.absolute (text "/") (text "a.rv")) =
          .ok (text "printf(\"a\"); b;") :=
        if_pos (by decide +kernel)
      have loaded : Loads twoFiles (text "/") strictly strictly [text "a.rv"] settings program :=
        .intro configured (by decide) read parsed
      obtain ⟨_, executes, _, _⟩ :=
        check_agrees twoFiles 0 ⟨text "/", none, false⟩ strictly strictly [text "a.rv"]
      obtain ⟨_, _, refuses, rejects⟩ :=
        check_agrees twoFiles 0 ⟨text "/", none, false⟩ strictly strictly [text "b.rv"]
      obtain ⟨checks, _, _, ends⟩ := executes settings program loaded
      refine ⟨settings, program, loaded, checks, ?_, ?_⟩
      · rw [ends (by rw [stops]; nofun) (by rw [stops]; nofun), if_pos ⟨strict, errors⟩]
      · have rejected : (parse (text "printf(\"a\"); b")).toOption.isNone = true := by
          decide +kernel
        cases broken : parse (text "printf(\"a\"); b") with
        | ok program =>
            rw [broken] at rejected
            cases rejected
        | error diagnostics =>
            have read : twoContents (Path.absolute (text "/") (text "b.rv")) =
                .ok (text "printf(\"a\"); b") :=
              (if_neg (by decide +kernel)).trans (if_pos (by decide +kernel))
            obtain ⟨report, tells, _, runs⟩ :=
              refuses (rejects (text "b.rv") _ diagnostics rfl read broken)
            exact ⟨report, tells, runs⟩

end Rover.Cli
