import Rover.Proofs.Reporting
import Rover.Session

/-!
A session asks for input only where an output line starts. What it keeps of its output is whether a
line starts there, and it ends the line that a source leaves unfinished, and no other.
-/

namespace Rover.Session

def outputOf (events : List Event) : Text :=
  events.flatMap (Event.bytesAt outputLabel)

theorem outputOf_append (events more : List Event) :
    outputOf (events ++ more) = outputOf events ++ outputOf more :=
  List.flatMap_append

def AtLineStart (output : Text) : Prop :=
  output = [] ∨ output.getLast? = some 10

instance (output : Text) : Decidable (AtLineStart output) :=
  inferInstanceAs (Decidable (_ ∨ _))

theorem atLineStart_append (output : Text) {bytes : Text} (some : bytes ≠ []) :
    AtLineStart (output ++ bytes) ↔ bytes.getLast? = Option.some 10 := by
  have last : (output ++ bytes).getLast? = bytes.getLast? := by
    rw [List.getLast?_append, List.getLast?_eq_some_getLast some]
    rfl
  unfold AtLineStart
  rw [last]
  exact ⟨fun either => either.resolve_left (by simp [some]), .inr⟩

section Follows

variable {lineStart : Bool} {output : Text} (follows : lineStart = true ↔ AtLineStart output)

include follows

theorem lineStartAfter_one (event : Event) :
    lineStartAfter lineStart [event] = true ↔ AtLineStart
      (output ++ event.bytesAt outputLabel) := by
  cases event with
  | flushed => rwa [Event.bytesAt, List.append_nil]
  | wrote label bytes =>
      by_cases shown : label = outputLabel
      · cases bytes with
        | nil => simpa [lineStartAfter, Event.bytesAt] using follows
        | cons first rest =>
            rw [Event.bytesAt, if_pos shown, atLineStart_append output
              (List.cons_ne_nil first rest)]
            simp [lineStartAfter, shown, List.getLast?_cons]
      · simpa [lineStartAfter, Event.bytesAt, shown] using follows

/-- What is kept of the output follows it, event by event. -/
theorem lineStartAfter_iff (events : List Event) :
    lineStartAfter lineStart events = true ↔ AtLineStart (output ++ outputOf events) := by
  induction events generalizing lineStart output with
  | nil => rwa [outputOf, List.flatMap_nil, List.append_nil]
  | cons event rest ih =>
      rw [outputOf, List.flatMap_cons, ← List.append_assoc]
      exact ih (lineStartAfter_one follows event)

end Follows

/-- The events of a source itself. -/
def own (session : Session) (fuel : Nat) (source : Text) : List Event :=
  match parse source with
  | .error diagnostics =>
      diagnostics.map fun diagnostic => complaint session.colored (diagnostic.shown ++ text "\n")
  | .ok program =>
      ({ session.machine with events := #[] }.after
        (program.run session.options fuel)).2.events.toList.map
        (paint session.colored)

/-- The events of a source, and the line break that ends the last line of its output. -/
def ownLines (session : Session) (fuel : Nat) (source : Text) : List Event :=
  session.own fuel source ++ lineEnd (lineStartAfter session.lineStart (session.own fuel source))

/-- The source that an input completes, if it is to be run. -/
def source? (session : Session) : Input → Option Text
  | .line bytes =>
      if openDepth (session.extended bytes) ≤ 0 then runnable (session.extended bytes) else none
  | .ended => if session.pending.isEmpty then none else runnable session.pending
  | .aborted | .failed => none
where
  runnable (source : Text) : Option Text :=
    if source.trim.isEmpty || source.trim.startsWith (text ":") then none else some source

def taking (session : Session) (source : Text) : Session :=
  { session with pending := [], history := session.history ++ [source.replace 10 32] }

theorem getLast?_line (line : Text) : (line ++ text "\n").getLast? = some 10 :=
  List.getLast?_concat

theorem obey_output (session : Session) (name : Text) :
    ∀ event ∈ (session.obey name).events, ∃ bytes, event = say bytes ∧
      bytes.getLast? = some 10 := by
  unfold obey
  cases Command.ofText name with
  | quit => exact List.forall_mem_nil _
  | vars =>
      rintro event listed
      obtain ⟨⟨global, binding⟩, _, rfl⟩ := List.mem_map.mp listed
      exact ⟨_, rfl, getLast?_line _⟩
  | builtins => exact List.forall_mem_singleton.mpr ⟨_, rfl, getLast?_line _⟩
  | help =>
      exact List.forall_mem_cons.mpr ⟨⟨_, rfl, by decide⟩, List.forall_mem_cons.mpr
        ⟨⟨_, rfl, by decide⟩, List.forall_mem_singleton.mpr ⟨_, rfl, by decide⟩⟩⟩
  | unknown =>
      have ended : (text ". Type :help for commands.\n").getLast? = some 10 := by decide
      refine List.forall_mem_singleton.mpr ⟨_, rfl, ?_⟩
      rw [List.getLast?_append, ended]
      rfl

theorem accept_cases (session : Session) (fuel : Nat) (source : Text) :
    match source?.runnable source with
    | some taken => session.accept fuel source = (session.taking taken).run fuel taken
    | none => ∀ event ∈ (session.accept fuel source).events,
        ∃ bytes, event = say bytes ∧ bytes.getLast? = some 10 := by
  unfold accept source?.runnable
  dsimp only
  cases source.trim.isEmpty with
  | true => exact List.forall_mem_nil _
  | false =>
      cases source.trim.startsWith (text ":") with
      | true => exact obey_output _ _
      | false => rfl

theorem receive_cases (session : Session) (fuel : Nat) (input : Input) :
    match session.source? input with
    | some source => session.receive fuel input = (session.taking source).run fuel source
    | none => ∀ event ∈ (session.receive fuel input).events,
        ∃ bytes, event = say bytes ∧ bytes.getLast? = some 10 := by
  have newline : ∀ event ∈ [say (text "\n")], ∃ bytes, event = say bytes ∧
      bytes.getLast? = some 10 :=
    List.forall_mem_singleton.mpr ⟨_, rfl, getLast?_line []⟩
  unfold source? receive
  cases input with
  | line bytes =>
      dsimp only
      by_cases closed : openDepth (session.extended bytes) ≤ 0
      · rw [if_pos closed, if_pos closed]
        exact accept_cases session fuel _
      · rw [if_neg closed, if_neg closed]
        exact List.forall_mem_nil _
  | ended =>
      cases session.pending.isEmpty with
      | true => exact newline
      | false => exact accept_cases session fuel _
  | aborted => exact List.forall_mem_nil _
  | failed => exact newline

theorem outputOf_complaints (colored : Bool) (lines : List Text) :
    outputOf (lines.map (complaint colored)) = [] := by
  have apart : errorLabel ≠ outputLabel := by decide
  apply List.flatMap_eq_nil_iff.mpr
  rintro event complained
  obtain ⟨line, _, rfl⟩ := List.mem_map.mp complained
  rw [complaint, Event.bytesAt, if_neg apart]

theorem lineStartAfter_complaints (lineStart colored : Bool) (lines : List Text) :
    lineStartAfter lineStart (lines.map (complaint colored)) = lineStart := by
  have apart : errorLabel ≠ outputLabel := by decide
  induction lines with
  | nil => rfl
  | cons line rest ih =>
      refine Eq.trans ?_ ih
      exact congrArg (lineStartAfter · (rest.map (complaint colored))) (if_neg apart)

theorem run_events (session : Session) (fuel : Nat) (source : Text) :
    ∃ report : List Text, report.length ≤ 1 ∧ (session.run fuel source).events =
      session.ownLines fuel source ++ report.map (complaint session.colored) := by
  unfold run ownLines own
  cases parse source with
  | error diagnostics =>
      refine ⟨[], Nat.zero_le _, ?_⟩
      have written := lineStartAfter_complaints session.lineStart session.colored
        (diagnostics.map fun diagnostic => diagnostic.shown ++ text "\n")
      rw [List.map_map] at written
      change lineStartAfter session.lineStart (diagnostics.map fun diagnostic =>
        complaint session.colored (diagnostic.shown ++ text "\n")) = _ at written
      dsimp only
      rw [written]
      exact (List.append_nil _).symm
  | ok program =>
      dsimp only
      split
      · exact ⟨[], Nat.zero_le _, (List.append_nil _).symm⟩
      · exact ⟨[], Nat.zero_le _, (List.append_nil _).symm⟩
      · exact ⟨[_], Nat.le_refl 1, rfl⟩

structure Follows (session : Session) (turn : Turn) : Prop where
  options : turn.session.options = session.options
  lineStart : turn.session.lineStart = lineStartAfter session.lineStart turn.events

theorem obey_follows (session : Session) (name : Text) : session.Follows (session.obey name) := by
  unfold obey
  cases Command.ofText name <;> exact ⟨rfl, rfl⟩

theorem run_follows (session : Session) (fuel : Nat) (source : Text) :
    session.Follows (session.run fuel source) := by
  unfold run
  split
  · exact ⟨rfl, rfl⟩
  · dsimp only
    split <;> exact ⟨rfl, rfl⟩

theorem accept_follows (session : Session) (fuel : Nat) (source : Text) :
    session.Follows (session.accept fuel source) := by
  unfold accept
  dsimp only
  split
  · exact ⟨rfl, rfl⟩
  · split
    · exact ⟨(obey_follows _ _).options, (obey_follows _ _).lineStart⟩
    · exact ⟨(run_follows _ _ _).options, (run_follows _ _ _).lineStart⟩

theorem receive_follows (session : Session) (fuel : Nat) (input : Input) :
    session.Follows (session.receive fuel input) := by
  unfold receive
  cases input with
  | line bytes =>
      dsimp only
      split
      · exact accept_follows _ _ _
      · exact ⟨rfl, rfl⟩
  | ended =>
      dsimp only
      split
      · exact ⟨rfl, rfl⟩
      · exact accept_follows _ _ _
  | aborted => exact ⟨rfl, rfl⟩
  | failed => exact ⟨rfl, rfl⟩

/-- A session that was set up with some options has come to a prompt with some output, and a line
starts there. -/
structure Prompted (options : Options) (session : Session) (output : Text) : Prop where
  options : session.options = options
  lineStart : session.lineStart = true
  starts : AtLineStart output

section Prompted

variable {options : Options} {session : Session} {output : Text} {fuel : Nat} {input : Input}
  {source : Text}

theorem Prompted.follows (prompted : Prompted options session output) :
    session.lineStart = true ↔ AtLineStart output :=
  ⟨fun _ => prompted.starts, fun _ => prompted.lineStart⟩

theorem atLineStart_lines {events : List Event} (starts : AtLineStart output)
    (lines : ∀ event ∈ events, ∃ bytes, event = say bytes ∧ bytes.getLast? = some 10) :
    AtLineStart (output ++ outputOf events) := by
  induction events generalizing output with
  | nil => rwa [outputOf, List.flatMap_nil, List.append_nil]
  | cons event rest ih =>
      obtain ⟨⟨bytes, said, line⟩, others⟩ := List.forall_mem_cons.mp lines
      have written : event.bytesAt outputLabel = bytes := by rw [said]; rfl
      have present : bytes ≠ [] := by
        rintro rfl
        cases line
      rw [outputOf, List.flatMap_cons, ← List.append_assoc, written]
      exact ih ((atLineStart_append output present).mpr line) others

theorem atLineStart_lineEnd {lineStart : Bool} (follows : lineStart = true ↔ AtLineStart output) :
    AtLineStart (output ++ outputOf (lineEnd lineStart)) := by
  cases lineStart with
  | true => exact (List.append_nil output).symm ▸ follows.mp rfl
  | false => exact (atLineStart_append output (List.cons_ne_nil _ _)).mpr rfl

theorem Prompted.run_ends (prompted : Prompted options session output) (fuel : Nat)
    (source : Text) : AtLineStart (output ++ outputOf (session.ownLines fuel source)) := by
  rw [ownLines, outputOf_append, ← List.append_assoc]
  exact atLineStart_lineEnd (lineStartAfter_iff prompted.follows _)

theorem Prompted.outputOf_run (prompted : Prompted options session output) (fuel : Nat)
    (source : Text) : AtLineStart (output ++ outputOf (session.run fuel source).events) := by
  obtain ⟨report, _, events⟩ := run_events session fuel source
  rw [events, outputOf_append, outputOf_complaints, List.append_nil]
  exact prompted.run_ends fuel source

theorem Prompted.taking (prompted : Prompted options session output) (source : Text) :
    Prompted options (session.taking source) output :=
  ⟨prompted.options, prompted.lineStart, prompted.starts⟩

theorem Prompted.again (prompted : Prompted options session output) (fuel : Nat) (input : Input) :
    Prompted options (session.receive fuel input).session
      (output ++ outputOf (session.receive fuel input).events) := by
  have follows := receive_follows session fuel input
  have starts : AtLineStart (output ++ outputOf (session.receive fuel input).events) := by
    have cases := receive_cases session fuel input
    split at cases
    · next source _ =>
        rw [cases]
        exact (prompted.taking source).outputOf_run fuel source
    · exact atLineStart_lines prompted.starts cases
  refine ⟨follows.options.trans prompted.options, ?_, starts⟩
  rw [follows.lineStart]
  exact (lineStartAfter_iff prompted.follows _).mpr starts

theorem paint_events_strict (strict : options.strict = true)
    (shows : options.output = some ⟨outputLabel, false⟩) (colored : Bool) (entry : Entry)
    (bytes : Text) : .wrote errorLabel bytes ∉ (entry.events options).map (paint colored) := by
  have apart : errorLabel ≠ outputLabel := by decide
  cases entry with
  | wrote shown => simp [Entry.events, shows, paint, apart, apart.symm]
  | flushed => simp [Entry.events, paint]
  | failed error => simp [Entry.events, strict]

theorem own_strict {program : Program} (parsed : parse source = .ok program)
    (strict : session.options.strict = true)
    (shows : session.options.output = some ⟨outputLabel, false⟩)
    (bytes : Text) : .wrote errorLabel bytes ∉ session.own fuel source := by
  obtain ⟨entries, logs⟩ :=
    run_logged session.options fuel program { session.machine with events := #[] }
  unfold own
  rw [parsed]
  dsimp only
  rw [after_eq_reached, logs.events, List.nil_append, List.map_flatMap]
  intro written
  obtain ⟨entry, _, painted⟩ := List.mem_flatMap.mp written
  exact paint_events_strict strict shows session.colored entry bytes painted

/-- What stands before the first error of a run is all that is written before the line that reports
it. -/
theorem eq_of_split {quiet report first rest : List Event} {event : Event} (silent : event ∉ quiet)
    (short : report.length ≤ 1) (split : quiet ++ report = first ++ event :: rest) :
    first = quiet := by
  rcases List.append_eq_append_iff.mp split with ⟨more, before, reported⟩ | ⟨more, before, reported⟩
  · have none : more = [] := by
      rw [reported, List.length_append, List.length_cons] at short
      exact List.length_eq_zero_iff.mp (by omega)
    rw [before, none, List.append_nil]
  · cases more with
    | nil => rw [before, List.append_nil]
    | cons other others =>
        cases (List.cons.inj reported).1
        exact absurd (before ▸ List.mem_append_right first List.mem_cons_self) silent

theorem Prompted.outputOf_ownLines (prompted : Prompted options session output)
    {diagnostics : List Diagnostic} (failed : parse source = .error diagnostics) :
    outputOf (session.ownLines fuel source) = [] := by
  have complaints : session.own fuel source =
      (diagnostics.map fun diagnostic => diagnostic.shown ++ text "\n").map
        (complaint session.colored) := by
    unfold own
    rw [failed, List.map_map]
    rfl
  rw [ownLines, complaints, lineStartAfter_complaints, prompted.lineStart, outputOf_append,
    outputOf_complaints]
  rfl

theorem Prompted.errors_start (prompted : Prompted options session output)
    (strict : options.strict = true) (shows : options.output = some ⟨outputLabel, false⟩)
    {first rest : List Event} {bytes : Text}
    (split : (session.receive fuel input).events = first ++ .wrote errorLabel bytes :: rest) :
    AtLineStart (output ++ outputOf first) := by
  have cases := receive_cases session fuel input
  split at cases
  · next source _ =>
      have taken := prompted.taking source
      obtain ⟨report, short, events⟩ := run_events (session.taking source) fuel source
      rw [cases, events] at split
      cases parsed : parse source with
      | error diagnostics =>
          have all : outputOf ((session.taking source).ownLines fuel source) = [] :=
            taken.outputOf_ownLines parsed
          have before := congrArg outputOf split
          rw [outputOf_append, outputOf_append, all, outputOf_complaints] at before
          rw [(List.append_eq_nil_iff.mp before.symm).1, List.append_nil]
          exact prompted.starts
      | ok program =>
          have silent : .wrote errorLabel bytes ∉ (session.taking source).ownLines fuel source := by
            intro member
            rcases List.mem_append.mp member with written | ended
            · rw [← taken.options] at strict shows
              exact own_strict parsed strict shows bytes written
            · unfold lineEnd at ended
              split at ended
              · cases ended
              · cases List.mem_singleton.mp ended
          rw [eq_of_split silent (by rwa [List.length_map]) split]
          exact taken.run_ends fuel source
  · obtain ⟨_, said, _⟩ := cases _ (split ▸ List.mem_append_right first List.mem_cons_self)
    cases said

end Prompted

structure Stage where
  session : Session
  input : Input

namespace Stage

variable (fuel : Nat)

def turn (stage : Stage) : Turn :=
  stage.session.receive fuel stage.input

def exchange (stage : Stage) : Exchange :=
  ⟨stage.session.prompt, (stage.turn fuel).events⟩

def output (stage : Stage) : Text :=
  outputOf (stage.turn fuel).events

end Stage

def stages (fuel : Nat) : Session → List Input → List Stage
  | session, [] =>
      let turn := session.receive fuel .ended
      if turn.status = .open then [⟨session, .ended⟩, ⟨turn.session, .ended⟩] else
        [⟨session, .ended⟩]
  | session, input :: inputs =>
      let turn := session.receive fuel input
      if turn.status = .open then ⟨session, input⟩ :: stages fuel turn.session inputs
      else [⟨session, input⟩]

theorem play_stages (fuel : Nat) (session : Session) (script : List Input) :
    (session.play fuel script).exchanges =
      (session.stages fuel script).map (Stage.exchange fuel) := by
  induction script generalizing session with
  | nil =>
      rw [play, stages]
      dsimp only
      by_cases goesOn : (session.receive fuel .ended).status = .open
      · rw [if_pos goesOn, if_pos goesOn]
        rfl
      · rw [if_neg goesOn, if_neg goesOn]
        rfl
  | cons input inputs ih =>
      rw [play, stages]
      dsimp only
      by_cases goesOn : (session.receive fuel input).status = .open
      · rw [if_pos goesOn, if_pos goesOn, List.map_cons, ← ih]
        rfl
      · rw [if_neg goesOn, if_neg goesOn]
        rfl

-- The induction is on the script: what holds at its first prompt holds at all others, whose output
-- goes on from that of the first.
theorem Prompted.at_stage {options : Options} {session : Session} {output : Text} {fuel : Nat}
    {script : List Input} (prompted : Prompted options session output) {before after : List Stage}
    {stage : Stage} (split : session.stages fuel script = before ++ stage :: after) :
    Prompted options stage.session (output ++ before.flatMap (Stage.output fuel)) := by
  have further {session : Session} {output : Text} {input : Input} {others before : List Stage}
      (prompted : Prompted options session output)
      (split : ⟨session, input⟩ :: others = before ++ stage :: after)
      (rest : ∀ before, others = before ++ stage :: after → Prompted options stage.session
        (output ++ Stage.output fuel ⟨session, input⟩ ++ before.flatMap (Stage.output fuel))) :
      Prompted options stage.session (output ++ before.flatMap (Stage.output fuel)) := by
    cases before with
    | nil =>
        cases (List.cons.inj split).1
        rwa [List.flatMap_nil, List.append_nil]
    | cons first before =>
        obtain ⟨rfl, others⟩ := List.cons.inj split
        rw [List.flatMap_cons, ← List.append_assoc]
        exact rest before others
  have nothing {before : List Stage} (split : [] = before ++ stage :: after) : False :=
    List.append_ne_nil_of_right_ne_nil before (List.cons_ne_nil stage after) split.symm
  induction script generalizing session output before with
  | nil =>
      rw [stages] at split
      split at split
      · exact further prompted split fun before last =>
          further (prompted.again fuel .ended) last fun _ none => (nothing none).elim
      · exact further prompted split fun _ none => (nothing none).elim
  | cons input inputs ih =>
      rw [stages] at split
      split at split
      · exact further prompted split fun before others => ih (prompted.again fuel input) others
      · exact further prompted split fun _ none => (nothing none).elim

theorem new_prompted (strict : Bool) (scale : Float) (colored : Bool) :
    Prompted (new strict scale colored).options (new strict scale colored) [] :=
  ⟨rfl, rfl, .inl rfl⟩

/-- Every prompt of a session starts a line, and so does an error in a strict session. What a source
that is run writes is followed by a line break if it leaves its line unfinished, and by no other
output. -/
theorem prompts_start_lines (strict : Bool) (scale : Float) (colored : Bool) (fuel : Nat)
    (script : List Input) {before after : List Stage} {stage : Stage}
    (split : (new strict scale colored).stages fuel script = before ++ stage :: after) :
    let written := before.flatMap (Stage.output fuel)
    let events := (stage.turn fuel).events
    ((new strict scale colored).play fuel script).exchanges =
        before.map (Stage.exchange fuel) ++ stage.exchange fuel :: after.map (Stage.exchange fuel) ∧
      AtLineStart written ∧
      (strict = true → ∀ first bytes rest, events = first ++ .wrote errorLabel bytes :: rest →
        AtLineStart (written ++ outputOf first)) ∧
      ∀ source, stage.session.source? stage.input = some source →
        ∃ (added : List Event) (report : List Text),
          events = stage.session.own fuel source ++ added ++ report.map
            (complaint stage.session.colored) ∧
          report.length ≤ 1 ∧
          (added = [] ∧ AtLineStart (written ++ outputOf (stage.session.own fuel source)) ∨
            added = [say (text "\n")] ∧
              ¬ AtLineStart (written ++ outputOf (stage.session.own fuel source))) := by
  intro written events
  have prompted : Prompted (new strict scale colored).options stage.session written :=
    (new_prompted strict scale colored).at_stage split
  refine ⟨?_, prompted.starts, ?_, ?_⟩
  · rw [play_stages, split, List.map_append, List.map_cons]
  · intro isStrict first bytes rest
    exact prompted.errors_start isStrict rfl
  · intro source runs
    have cases := receive_cases stage.session fuel stage.input
    rw [runs] at cases
    obtain ⟨report, short, wrote⟩ := run_events (stage.session.taking source) fuel source
    refine ⟨_, report, (congrArg Turn.events cases).trans wrote, short, ?_⟩
    have follows := lineStartAfter_iff prompted.follows (stage.session.own fuel source)
    change lineEnd (lineStartAfter stage.session.lineStart (stage.session.own fuel source)) = [] ∧
      _ ∨
      lineEnd (lineStartAfter stage.session.lineStart (stage.session.own fuel source)) = _ ∧ _
    cases start : lineStartAfter stage.session.lineStart (stage.session.own fuel source) with
    | true => exact .inl ⟨rfl, follows.mp start⟩
    | false => exact .inr ⟨rfl, fun starts => by simp [follows.mpr starts] at start⟩

def unfinishedLine : Text := text "printf(\"a\"); b;"

theorem prompts_start_lines_unfinished :
    let session := new true 0 false
    ∃ last,
      session.stages 1 [.line unfinishedLine] = [] ++ ⟨session, .line unfinishedLine⟩ :: [last] ∧
      session.source? (.line unfinishedLine) = some unfinishedLine ∧
      ∃ report : List Text, (session.receive 1 (.line unfinishedLine)).events =
        session.own 1 unfinishedLine ++ [say (text "\n")] ++ report.map (complaint false) := by
  intro session
  have goesOn : (session.receive 1 (.line unfinishedLine)).status = .open := by decide +kernel
  have closes :
      ((session.receive 1 (.line unfinishedLine)).session.receive 1 .ended).status ≠ .open := by
    decide +kernel
  have runs : session.source? (.line unfinishedLine) = some unfinishedLine := by decide +kernel
  have split : session.stages 1 [.line unfinishedLine] = [] ++ ⟨session, .line unfinishedLine⟩ ::
      [⟨(session.receive 1 (.line unfinishedLine)).session, .ended⟩] := by
    rw [stages, if_pos goesOn, stages, if_neg closes]
    rfl
  obtain ⟨_, _, _, ends⟩ := prompts_start_lines true 0 false 1 [.line unfinishedLine] split
  obtain ⟨added, report, events, _, ended⟩ := ends unfinishedLine runs
  refine ⟨_, split, runs, report, ?_⟩
  rcases ended with ⟨_, starts⟩ | ⟨rfl, _⟩
  · exact absurd starts (by decide +kernel)
  · exact events

end Rover.Session
