import Rover.Proofs.Relocation.Execution
import Rover.Proofs.Safety.Execution
import Rover.Proofs.Session.Input

/-!
A session runs sources to the same effect as one program does that consists of them, one below the
other. Each source starts from the variables that the earlier ones left, and the session adds
nothing to the output but line breaks.
-/

namespace Rover

def Session.Exchange.output (exchange : Session.Exchange) : Text :=
  exchange.events.flatMap (Event.bytesAt outputLabel)

theorem bytesAt_paint (colored : Bool) (event : Event) :
    (Session.paint colored event).bytesAt outputLabel = event.bytesAt outputLabel := by
  have apart : errorLabel ≠ outputLabel := by decide
  cases event with
  | flushed => rfl
  | wrote label bytes =>
      by_cases isError : label = errorLabel
      · simp [Session.paint, Session.complaint, Event.bytesAt, isError, apart]
      · simp [Session.paint, isError]

theorem lineEnd_output (lineStart : Bool) :
    (Session.lineEnd lineStart).flatMap (Event.bytesAt outputLabel) = [] ∨
      (Session.lineEnd lineStart).flatMap (Event.bytesAt outputLabel) = text "\n" := by
  cases lineStart with
  | true => exact .inl rfl
  | false => exact .inr (by decide)

structure Session.Ready (session : Session) : Prop where
  sound : session.machine.Sound
  whole : session.machine.Whole
  single : session.machine.scopes.length = 1
  unwritten : session.machine.events = #[]
  lenient : session.options.strict = false
  apart : session.options.Apart outputLabel
  complete : session.pending = []

/-- Whether the run of a source ends by itself: it neither crashes nor goes on for ever. -/
def Session.survives (session : Session) (fuel : Nat) (source : Text) : Bool :=
  match parse source with
  | .error _ => true
  | .ok program =>
      match (session.machine.after (program.run session.options fuel)).1 with
      | some .outOfFuel | some (.crash _) => false
      | _ => true

section Input

variable {session : Session} {fuel : Nat} {source : Text} {program : Program}

theorem Session.Ready.runs (ready : session.Ready) (parsed : parse source = .ok program)
    (survives : session.survives fuel source = true) :
    ∃ after, program.run session.options fuel session.machine = .ok () after := by
  have executed := Job.executes ⟨session.options, fuel, program⟩ (parse_spelled parsed) ready.sound
    ready.whole ready.single
  cases ran : program.run session.options fuel session.machine with
  | ok _ after => exact ⟨after, rfl⟩
  | error stop after =>
      have allowed := (executed.of_error ran).2
      rw [Session.survives, parsed] at survives
      dsimp only at survives
      rw [Machine.after, ran] at survives
      cases stop with
      | error failure =>
          rw [Stop.Allowed, ready.lenient] at allowed
          cases allowed
      | unsupported message => exact allowed.elim
      | crash cause => cases survives
      | outOfFuel => cases survives

/-- What the turn for an accepted source comes to. -/
structure Session.Took (session : Session) (after : Machine) (turn : Turn) : Prop where
  machine : turn.session.machine = { after with events := #[] }
  options : turn.session.options = session.options
  complete : turn.session.pending = []
  goesOn : turn.status = .open
  output : turn.events.flatMap (Event.bytesAt outputLabel) = after.written outputLabel ∨
    turn.events.flatMap (Event.bytesAt outputLabel) = after.written outputLabel ++ text "\n"

theorem Session.Ready.takes (ready : session.Ready) (parsed : parse source = .ok program)
    {after : Machine} (ran : program.run session.options fuel session.machine = .ok () after) :
    session.Took after (session.receive fuel (.line source)) := by
  have extended : session.extended source = source := by
    unfold Session.extended
    rw [ready.complete]
    rfl
  have unwritten : { session.machine with events := #[] } = session.machine := by
    rw [← ready.unwritten]
  unfold Session.receive
  dsimp only
  rw [extended, if_pos (Int.le_of_eq (openDepth_of_parsed parsed))]
  unfold Session.accept
  dsimp only
  -- a blank input is not run at all, which comes to the same as running no statements
  by_cases blank : source.trim = []
  · have same : after = session.machine := by
      rw [run_of_single ready.single, statements_of_blank parsed blank, executeAll] at ran
      cases ran
      rfl
    rw [blank, if_pos List.isEmpty_nil, same]
    refine ⟨unwritten.symm, rfl, rfl, rfl, .inl ?_⟩
    rw [Machine.written, ready.unwritten]
    rfl
  · rw [if_neg (by rw [List.isEmpty_iff]; exact blank), not_command_of_parsed parsed,
      if_neg Bool.false_ne_true]
    unfold Session.run
    rw [parsed]
    dsimp only
    rw [unwritten, Machine.after, ran]
    refine ⟨rfl, rfl, rfl, rfl, ?_⟩
    unfold Session.wrote Machine.written
    dsimp only
    rw [List.flatMap_append, List.flatMap_map]
    simp only [bytesAt_paint]
    rcases lineEnd_output _ with none | one
    · rw [none, List.append_nil]
      exact .inl rfl
    · rw [one]
      exact .inr rfl

theorem Session.Ready.again (ready : session.Ready) (parsed : parse source = .ok program)
    {after : Machine} (ran : program.run session.options fuel session.machine = .ok () after)
    {turn : Turn} (took : session.Took after turn) : turn.session.Ready := by
  have jobs : ∀ job ∈ [(⟨session.options, fuel, program⟩ : Job)],
      ∃ source, parse source = .ok job.program := by
    simpa using ⟨source, parsed⟩
  have left := afterAll_whole jobs ready.sound ready.whole ready.single
  have reached : session.machine.afterAll [⟨session.options, fuel, program⟩] = after := by
    change (session.machine.after (program.run session.options fuel)).2 = after
    rw [Machine.after, ran]
  rw [reached] at left
  obtain ⟨sound, whole, single⟩ := left
  refine ⟨?_, ?_, ?_, ?_, ?_, ?_, took.complete⟩
  · rw [took.machine]
    exact ⟨sound.once, sound.below⟩
  · rw [took.machine]
    exact whole
  · rw [took.machine]
    exact single
  · rw [took.machine]
  · rw [took.options]
    exact ready.lenient
  · rw [took.options]
    exact ready.apart

def Session.shown (output : Text × Bool) : Text :=
  if output.2 then output.1 ++ text "\n" else output.1

/-- A session took a source that adds some errors and some output to it, and to a machine with the
same values the source adds the same, some lines further down. -/
structure Session.Advances (fuel : Nat) (session : Session) (source : Text) (lines : Int)
    (other next : Machine) (errors : List RuntimeError) (output : Text × Bool) (turn : Turn) :
    Prop where
  ready : turn.session.Ready
  options : turn.session.options = session.options
  goesOn : turn.status = .open
  ran : executeAll session.options fuel (Stmt.moveAll lines source.statements) other = .ok () next
  alike : turn.session.machine.Alike next
  shows : turn.events.flatMap (Event.bytesAt outputLabel) = shown output
  output : next.written outputLabel = other.written outputLabel ++ output.1
  recorded : turn.session.machine.errors.toList = session.machine.errors.toList ++ errors
  errors : next.errors.toList = other.errors.toList ++ errors.map (·.move lines)

theorem Session.Took.advances {after : Machine} {turn : Turn} (took : session.Took after turn)
    (ready : turn.session.Ready) (unwritten : session.machine.events = #[]) {other next : Machine}
    {lines : Int} (level : Twins.Level ⟨lines, outputLabel, session.machine, other⟩ after next)
    (ran : executeAll session.options fuel (Stmt.moveAll lines source.statements) other = .ok
      () next) :
    ∃ errors output, session.Advances fuel source lines other next errors output turn := by
  obtain ⟨errors, recorded, recordedThere⟩ := level.errors
  obtain ⟨bytes, written, writtenThere⟩ := level.output
  have fresh : session.machine.written outputLabel = [] := by
    rw [Machine.written, unwritten]
    rfl
  dsimp only at recorded recordedThere written writtenThere
  rw [fresh, List.nil_append] at written
  obtain ⟨broken, shows⟩ : ∃ broken,
      turn.events.flatMap (Event.bytesAt outputLabel) = shown (bytes, broken) := by
    rw [← written]
    rcases took.output with same | added
    · exact ⟨false, same⟩
    · exact ⟨true, added⟩
  refine ⟨errors, (bytes, broken), ready, took.options, took.goesOn, ran, ?_, shows, writtenThere,
    ?_,
    recordedThere⟩
  · rw [took.machine]
    exact ⟨level.scopes, level.orphans, level.next⟩
  · rw [took.machine]
    exact recorded

theorem Session.Ready.step (ready : session.Ready) (accepted : Accepted source)
    (survives : session.survives fuel source = true) {other : Machine}
    (alike : session.machine.Alike other) (lines : Int) :
    ∃ next errors output, session.Advances fuel source lines other next errors output
      (session.receive fuel (.line source)) := by
  obtain ⟨⟨program, parsed⟩, _⟩ := accepted
  obtain ⟨after, ran⟩ := ready.runs parsed survives
  have took := ready.takes parsed ran
  have again := ready.again parsed ran took
  rw [run_of_single ready.single] at ran
  let twins : Twins := ⟨lines, outputLabel, session.machine, other⟩
  have begins : twins.Level session.machine other := .begins alike
  have moved := executeAll_moved ready.apart fuel (parse_spelled parsed) _ _ begins
  rw [ran, ← statements_of_parsed parsed] at moved
  generalize ranThere : executeAll session.options fuel
    (Stmt.moveAll lines source.statements) other =
    result at moved
  cases moved with
  | ok _ level => exact ⟨_, took.advances again ready.unwritten level ranThere⟩

end Input

namespace Session

def survivesAll (fuel : Nat) : Session → List Text → Bool
  | _, [] => true
  | session, source :: rest =>
      session.survives fuel source &&
        survivesAll fuel (session.receive fuel (.line source)).session rest

def errorsEach (fuel : Nat) : Session → List Text → List (List RuntimeError)
  | _, [] => []
  | session, source :: rest =>
      let next := (session.receive fuel (.line source)).session
      next.machine.errors.toList.drop session.machine.errors.size :: errorsEach fuel next rest

/-- A played session, and a run of the sources as one program that starts some lines further down,
from a machine with the same values. -/
structure Replays (fuel : Nat) (session : Session) (sources : List Text) (lines : Int)
    (other final : Machine) (outputs : List (Text × Bool)) (played : Transcript) : Prop where
  ran : executeAll session.options fuel
    ((placed lines sources).flatMap fun part => Stmt.moveAll part.2 part.1.statements) other =
      .ok () final
  alike : played.session.machine.Alike final
  count : outputs.length = sources.length
  shows : played.exchanges.map Exchange.output = outputs.map shown ++ [text "\n"]
  output : final.written outputLabel = other.written outputLabel ++ outputs.flatMap (·.1)
  recorded : played.session.machine.errors.toList =
    session.machine.errors.toList ++ (session.errorsEach fuel sources).flatten
  errors : final.errors.toList = other.errors.toList ++
    (List.zipWith (fun part errors => errors.map (·.move part.2)) (placed lines sources)
      (session.errorsEach fuel sources)).flatten

theorem Ready.replays_nil {session : Session} (ready : session.Ready) {fuel : Nat} {other : Machine}
    (alike : session.machine.Alike other) (lines : Int) :
    session.Replays fuel [] lines other other [] (session.play fuel []) := by
  have ended : session.receive fuel .ended = session.wrote [say (text "\n")] .closed := by
    unfold receive
    exact if_pos (by rw [ready.complete]; rfl)
  have played : session.play fuel [] = ⟨[⟨session.prompt, [say (text "\n")]⟩],
      (session.wrote [say (text "\n")] .closed).session, 0, .closed⟩ := by
    rw [play, ended]
    rfl
  rw [played]
  refine ⟨?_, alike, rfl, ?_, ?_, ?_, ?_⟩
  · rw [placed, List.flatMap_nil, executeAll]
    rfl
  · simp [Exchange.output, say, Event.bytesAt]
  · simp
  · simp [errorsEach, wrote]
  · simp [placed]

theorem Replays.cons {session : Session} {fuel : Nat} {source : Text} {rest : List Text}
    {lines : Int}
    {other next final : Machine} {errors : List RuntimeError} {output : Text × Bool}
    {outputs : List (Text × Bool)}
    (first : session.Advances fuel source lines other next errors output
      (session.receive fuel (.line source)))
    (replays : (session.receive fuel (.line source)).session.Replays fuel rest
      (lines + (source.chars.count '\n' + 1)) next final outputs
      ((session.receive fuel (.line source)).session.play fuel (rest.map .line))) :
    session.Replays fuel (source :: rest) lines other final (output :: outputs)
      (session.play fuel ((source :: rest).map .line)) := by
  have played : session.play fuel ((source :: rest).map .line) =
      { (session.receive fuel (.line source)).session.play fuel (rest.map .line) with
        exchanges :=
          ⟨session.prompt, (session.receive fuel (.line source)).events⟩ ::
            ((session.receive fuel (.line source)).session.play fuel
              (rest.map .line)).exchanges } := by
    rw [List.map_cons, play]
    exact if_pos first.goesOn
  have each : session.errorsEach fuel (source :: rest) =
      errors :: (session.receive fuel (.line source)).session.errorsEach fuel rest := by
    rw [errorsEach, first.recorded, List.drop_left' Array.length_toList]
  rw [played]
  refine ⟨?_, replays.alike, ?_, ?_, ?_, ?_, ?_⟩
  · rw [placed, List.flatMap_cons, executeAll_append, bind_of_ok first.ran, ← first.options]
    exact replays.ran
  · rw [List.length_cons, List.length_cons, replays.count]
  · rw [List.map_cons, List.map_cons, replays.shows, List.cons_append, ← first.shows]
    rfl
  · rw [replays.output, first.output, List.flatMap_cons, List.append_assoc]
  · rw [each, List.flatten_cons, ← List.append_assoc, ← first.recorded]
    exact replays.recorded
  · rw [each, placed, List.zipWith_cons_cons, List.flatten_cons, ← List.append_assoc,
      ← first.errors]
    exact replays.errors

-- The induction is on the sources; the run of the one program goes along from a machine that is
-- alike.
theorem Ready.plays {session : Session} (ready : session.Ready) {fuel : Nat} {sources : List Text}
    (accepted : ∀ source ∈ sources, Accepted source)
    (survives : session.survivesAll fuel sources = true) {other : Machine}
    (alike : session.machine.Alike other) (lines : Int) :
    ∃ final outputs, session.Replays fuel sources lines other final outputs
      (session.play fuel (sources.map .line)) := by
  induction sources generalizing session other lines with
  | nil => exact ⟨other, [], ready.replays_nil alike lines⟩
  | cons source rest ih =>
      obtain ⟨survivesFirst, survivesRest⟩ := Bool.and_eq_true_iff.mp survives
      obtain ⟨next, errors, output, first⟩ :=
        ready.step (accepted source List.mem_cons_self) survivesFirst alike lines
      obtain ⟨final, outputs, replays⟩ := ih first.ready
        (fun source member => accepted source (List.mem_cons_of_mem _ member)) survivesRest
          first.alike
        (lines + (source.chars.count '\n' + 1))
      exact ⟨final, output :: outputs, .cons first replays⟩

theorem new_ready (scale : Float) (colored : Bool) : (new false scale colored).Ready := by
  refine ⟨Machine.new_sound, Machine.new_whole, rfl, rfl, rfl, ?_, rfl⟩
  rintro writer ⟨⟩
  decide

end Session

/-- A lenient session that is given sources that parse, one after another, does what one program
does that consists of them on lines of their own. -/
theorem play_joined (scale : Float) (colored : Bool) (fuel : Nat) {sources : List Text}
    (accepted : ∀ source ∈ sources, Accepted source)
    (survives : (Session.new false scale colored).survivesAll fuel sources = true) :
    let session := Session.new false scale colored
    let played := session.play fuel (sources.map .line)
    ∃ (program : Program) (final : Machine) (outputs : List (Text × Bool)),
      parse (Text.join (text "\n") sources) = .ok program ∧
      program.body =
        ((placed 0 sources).flatMap fun part => Stmt.moveAll part.2 part.1.statements) ∧
      program.run session.options fuel .new = .ok () final ∧
      played.session.machine.globals = final.globals ∧
      final.written outputLabel = outputs.flatMap (·.1) ∧
      outputs.length = sources.length ∧
      played.exchanges.map Session.Exchange.output =
        outputs.map Session.shown ++ [text "\n"] ∧
      played.session.machine.errors.toList = (session.errorsEach fuel sources).flatten ∧
      final.errors.toList =
        (List.zipWith (fun part errors => errors.map (·.move part.2)) (placed 0 sources)
          (session.errorsEach fuel sources)).flatten := by
  intro session played
  obtain ⟨program, parsed, body⟩ := parse_joined accepted
  obtain ⟨final, outputs, replays⟩ := (Session.new_ready scale colored).plays accepted survives
    (⟨rfl, rfl, rfl⟩ : Machine.new.Alike Machine.new) 0
  refine ⟨program, final, outputs, parsed, body, ?_, ?_, replays.output, replays.count,
    replays.shows,
    replays.recorded, replays.errors⟩
  · rw [run_of_single rfl, body]
    exact replays.ran
  · unfold Machine.globals
    rw [replays.alike.scopes]

/-- An input that leaves its output line unfinished, a comment, and an input that ends with an error
on its second line. -/
def threeInputs : List Text :=
  [text "var a = [1];\nprintf(\"\x7b\x7d\", b);", text " // nothing",
    text "if length(a) == 1 \x7b\n  push(a, c);\n\x7d"]

theorem play_joined_undefined :
    (∀ source ∈ threeInputs, Accepted source) ∧
      (Session.new false 0 false).survivesAll 0 threeInputs = true ∧
      ∃ program final, parse (Text.join (text "\n") threeInputs) = .ok program ∧
        program.run (Session.new false 0 false).options 0 .new = .ok () final ∧
        final.errors.toList =
          [⟨.undefined (text "b"), ⟨2, 14⟩⟩, ⟨.undefined (text "c"), ⟨5, 11⟩⟩] := by
  have accepted : ∀ source ∈ threeInputs, Accepted source := by
    intro source member
    have passes : ((parse source).toOption.any fun _ => true) = true ∧ '\x00' ∉ source.chars := by
      revert source
      decide +kernel
    obtain ⟨program, parsed, _⟩ := exists_parsed passes.1
    exact ⟨⟨program, parsed⟩, passes.2⟩
  have survives : (Session.new false 0 false).survivesAll 0 threeInputs = true := by decide +kernel
  have errors : (Session.new false 0 false).errorsEach 0 threeInputs =
      [[⟨.undefined (text "b"), ⟨2, 14⟩⟩], [], [⟨.undefined (text "c"), ⟨2, 11⟩⟩]] := by
    decide +kernel
  obtain ⟨program, final, _, parsed, _, ran, _, _, _, _, _, recorded⟩ :=
    play_joined 0 false 0 accepted survives
  refine ⟨accepted, survives, program, final, parsed, ran, recorded.trans ?_⟩
  rw [errors]
  decide +kernel

end Rover
