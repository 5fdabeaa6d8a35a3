import Rover.Proofs.Checking
import Rover.Proofs.Cli
import Rover.Proofs.Session.LineStart
import Rover.Proofs.Settings

/-!
The scale that programs are run with. The configuration that it comes from is checked, but a flag
for it is not, and so programs are run with a scale that is not finite exactly if the flag that
counts names such a number. The color mode is always a known one.
-/

namespace Rover

namespace Cli

inductive ScaleWords (word : Text) : List Text → Prop where
  | joined {dashes : Text} (dashed : Dashes dashes) :
      ScaleWords word [dashes ++ (Flag.scale.name ++ equalsSign :: word)]
  | apart {dashes : Text} (dashed : Dashes dashes) :
    ScaleWords word [dashes ++ Flag.scale.name, word]

def Scaleless (settings : List Setting) : Prop :=
  ∀ factor, .scale factor ∉ settings

/-- The word that the last scale is given by among the flags at the start of a command line. -/
inductive LastScale (known : List Flag) (word : Text) : List Text → Prop where
  | here {words arguments rest : List Text} {settings : List Setting} {factor : Float}
      (given : ScaleWords word words) (read : Reading.float word = .ok factor)
      (more : Reads known arguments settings rest) (last : Scaleless settings) :
      LastScale known word (words ++ arguments)
  | later {words arguments : List Text} {setting : Setting} (spelled : Spelled known words setting)
      (more : LastScale known word arguments) : LastScale known word (words ++ arguments)

/-- The word that counts for the scale: that of the last flag for it after the command, or else in
front of it. -/
inductive CountingScale (arguments : List Text) (word : Text) : Prop where
  | after {name : Text} {others : List Text} {inFront : List Setting} {command : Command}
      (front : Reads globalFlags arguments inFront (name :: others))
      (named : Command.named? name = some command)
      (given : LastScale (command.ownFlags ++ helpFlags) word (flagsFirst others))
  | inFront (given : LastScale globalFlags word arguments)
      (alone : ∀ name others inFront command, Reads globalFlags arguments inFront (name :: others) →
        Command.named? name = some command →
        ∀ other, ¬LastScale (command.ownFlags ++ helpFlags) other (flagsFirst others))

section Words

variable {known : List Flag} {words arguments rest : List Text} {settings : List Setting}
  {word : Text}
  {factor : Float} {flag : Flag}

def scale? : Setting → Option Float
  | .scale factor => some factor
  | _ => none

theorem ofSettings_scale (settings : List Setting) :
    (Flags.ofSettings settings).scale = last settings scale? := by
  rw [Flags.ofSettings]
  congr

theorem last_cons {α : Type} (pick : Setting → Option α) (setting : Setting)
    (settings : List Setting) :
    last (setting :: settings) pick = (last settings pick <|> pick setting) := by
  unfold last
  cases picked : pick setting with
  | none => rw [List.filterMap_cons_none picked]; simp
  | some value => rw [List.filterMap_cons_some picked, List.getLast?_cons]; simp

theorem scaleless_iff : Scaleless settings ↔ last settings scale? = none := by
  unfold last
  rw [List.getLast?_eq_none_iff, List.filterMap_eq_nil_iff]
  constructor
  · intro none setting member
    cases setting with
    | scale factor => exact absurd member (none factor)
    | _ => rfl
  · intro none factor member
    cases none _ member

theorem setting_eq_scale_iff {value : Text} :
    flag.setting value = .ok (.scale factor) ↔ flag = .scale ∧
      Reading.float value = .ok factor := by
  cases flag with
  | scale =>
      rw [Flag.setting]
      cases Reading.float value <;> simp
  | config => simp [Flag.setting]
  | _ =>
      rw [Flag.setting]
      cases switch? value <;> simp

theorem Spelled.scaleWords (spelled : Spelled known words (.scale factor)) :
    ∃ word, ScaleWords word words ∧ Reading.float word = .ok factor := by
  cases spelled with
  | bare flag dashed member switch set =>
      obtain ⟨rfl, -⟩ := setting_eq_scale_iff.mp set
      cases switch
  | joined flag word dashed member set =>
      obtain ⟨rfl, read⟩ := setting_eq_scale_iff.mp set
      exact ⟨word, .joined dashed, read⟩
  | apart flag word dashed member noSwitch set =>
      obtain ⟨rfl, read⟩ := setting_eq_scale_iff.mp set
      exact ⟨word, .apart dashed, read⟩

theorem ScaleWords.spelled (given : ScaleWords word words) (member : .scale ∈ known)
    (read : Reading.float word = .ok factor) : Spelled known words (.scale factor) := by
  have set := setting_eq_scale_iff.mpr ⟨rfl, read⟩
  cases given with
  | joined dashed => exact .joined .scale word dashed member set
  | apart dashed => exact .apart .scale word dashed member rfl set

-- The induction is on the flags. The first one counts only if no later one does.
theorem Reads.lastScale (reads : Reads known arguments settings rest)
    (given : last settings scale? = some factor) :
    ∃ word, LastScale known word arguments ∧ Reading.float word = .ok factor := by
  induction reads with
  | nothing => cases given
  | plain => cases given
  | terminator => cases given
  | @flag words arguments rest setting settings spelled more ih =>
      rw [last_cons] at given
      cases later : last settings scale? with
      | some value =>
          rw [later] at given
          obtain ⟨word, counts, read⟩ := ih (later.trans given)
          exact ⟨word, .later spelled counts, read⟩
      | none =>
          rw [later] at given
          cases setting with
          | scale value =>
              cases given
              obtain ⟨word, words, read⟩ := spelled.scaleWords
              exact ⟨word, .here words read more (scaleless_iff.mpr later), read⟩
          | _ => cases given

theorem LastScale.reads (counts : LastScale known word arguments) (member : .scale ∈ known) :
    ∃ factor settings rest, Reading.float word = .ok factor ∧ Reads known arguments settings rest ∧
      last settings scale? = some factor := by
  induction counts with
  | here given read more none =>
      refine ⟨_, _, _, read, .flag (given.spelled member read) more, ?_⟩
      rw [last_cons, scaleless_iff.mp none]
      rfl
  | later spelled more ih =>
      obtain ⟨factor, settings, rest, read, reads, given⟩ := ih
      refine ⟨factor, _, _, read, .flag spelled reads, ?_⟩
      rw [last_cons, given]
      rfl

theorem LastScale.last (counts : LastScale known word arguments) (member : .scale ∈ known)
    (reads : Reads known arguments settings rest) :
    ∃ factor, Reading.float word = .ok factor ∧ Cli.last settings scale? = some factor := by
  obtain ⟨factor, settings', rest', read, reads', given⟩ := counts.reads member
  exact ⟨factor, read, (reads.unique reads').1 ▸ given⟩

theorem Reads.last_eq_some_iff (reads : Reads known arguments settings rest)
    (member : .scale ∈ known) :
    last settings scale? = some factor ↔
      ∃ word, LastScale known word arguments ∧ Reading.float word = .ok factor := by
  refine ⟨reads.lastScale, ?_⟩
  rintro ⟨word, counts, read⟩
  obtain ⟨value, read', given⟩ := counts.last member reads
  cases read.symm.trans read'
  exact given

theorem Reads.no_lastScale_iff (reads : Reads known arguments settings rest)
    (member : .scale ∈ known) :
    (∀ word, ¬LastScale known word arguments) ↔ last settings scale? = none := by
  constructor
  · intro silent
    by_contra some
    obtain ⟨factor, given⟩ := Option.ne_none_iff_exists'.mp some
    obtain ⟨word, counts, -⟩ := reads.lastScale given
    exact silent word counts
  · intro none word counts
    obtain ⟨factor, -, given⟩ := counts.last member reads
    cases none.symm.trans given

end Words

section Counting

variable {terminal : Bool} {arguments names left others : List Text} {name : Text}
  {inFront after settings : List Setting} {action : Action} {command : Command} {factor : Float}

theorem scale_mem_known (does : command.action? = some action) :
    .scale ∈ command.ownFlags ++ helpFlags := by
  cases command with
  | help => cases does
  | _ => decide

theorem counting_of_no_command (front : Reads globalFlags arguments settings left)
    (alone : ∀ name others command, left = name :: others → Command.named? name ≠ some command) :
    last settings scale? = some factor ↔
      ∃ word, CountingScale arguments word ∧ Reading.float word = .ok factor := by
  rw [front.last_eq_some_iff (by decide)]
  constructor
  · rintro ⟨word, given, read⟩
    refine ⟨word, .inFront given fun name others inFront command front' named => ?_, read⟩
    exact absurd named (alone name others command (front.unique front').2)
  · rintro ⟨word, counts, read⟩
    cases counts with
    | after front' named given => exact absurd named (alone _ _ _ (front.unique front').2)
    | inFront given alone => exact ⟨word, given, read⟩

theorem counting_of_command (front : Reads globalFlags arguments inFront (name :: others))
    (named : Command.named? name = some command) (does : command.action? = some action)
    (behind : Reads (command.ownFlags ++ helpFlags) (flagsFirst others) after names) :
    (last after scale? <|> last inFront scale?) = some factor ↔
      ∃ word, CountingScale arguments word ∧ Reading.float word = .ok factor := by
  have known := scale_mem_known does
  have silent := behind.no_lastScale_iff known
  constructor
  · intro given
    cases later : last after scale? with
    | some value =>
        rw [later] at given
        obtain ⟨word, counts, read⟩ := behind.lastScale (later.trans given)
        exact ⟨word, .after front named counts, read⟩
    | none =>
        rw [later] at given
        obtain ⟨word, counts, read⟩ := front.lastScale given
        refine ⟨word, .inFront counts fun name' others' inFront' command' front' named' => ?_, read⟩
        cases (front.unique front').2
        cases named.symm.trans named'
        exact silent.mpr later
  · rintro ⟨word, counts, read⟩
    cases counts with
    | after front' named' given =>
        cases (front.unique front').2
        cases named.symm.trans named'
        rw [(behind.last_eq_some_iff known).mpr ⟨word, given, read⟩]
        rfl
    | inFront given alone =>
        have none := silent.mp (alone _ _ _ _ front named)
        rw [none, (front.last_eq_some_iff (by decide)).mpr ⟨word, given, read⟩]
        rfl

theorem over_scale_eq_some_iff (asks : Asks terminal arguments action inFront after names) :
    ((Flags.ofSettings after).over (.ofSettings inFront)).scale = some factor ↔
      ∃ word, CountingScale arguments word ∧ Reading.float word = .ok factor := by
  rw [Flags.over, ofSettings_scale, ofSettings_scale]
  cases asks with
  | session front quiet noVersion interactive =>
      simp only [Option.orElse_eq_orElse, Option.orElse_eq_or, Option.or_self]
      refine counting_of_no_command front fun name others command same => ?_
      exact absurd same.symm (List.cons_ne_nil name others)
  | source front quiet noVersion noCommand =>
      simp only [Option.orElse_eq_orElse, Option.orElse_eq_or, Option.or_self]
      refine counting_of_no_command front fun name others command same named => ?_
      cases same
      cases noCommand.symm.trans named
  | command front quiet noVersion named does behind quietBehind =>
      exact counting_of_command front named does behind

end Counting

def Task.source (task : Task) : Except Text Text :=
  match task.action with
  | .run | .check => sourceArgument task.arguments
  | .repl => .ok []

/-- What a task leads to with some settings. All programs are run with the options that these give,
also those of a session, whatever is answered to its prompts, but that a session does not hold its
output back. -/
inductive Carried (files : Files Id) (fuel : Nat) (directory source : Text) (settings : Settings) :
    Action → Outcome → Prop where
  | broken {action : Action} {error : SourceError} (takesSource : action ≠ .repl)
      (loaded : Source.load files directory source = .error error) :
      Carried files fuel directory source settings action
        (.finished ⟨error.lines.map fun line =>
          Session.complaint settings.colored (line ++ text "\n"), .exit 1⟩)
  | run {program : Source} (loaded : Source.load files directory source = .ok program) :
      Carried files fuel directory source settings .run
        (.finished (runProgram settings fuel program.program))
  | check {program : Source} (loaded : Source.load files directory source = .ok program) :
      Carried files fuel directory source settings .check (.finished (shown (text "ok\n") 0))
  | session {interaction : Interaction}
      (options : ∀ script, ∀ stage ∈ interaction.session.stages fuel script,
        stage.session.options =
          { runOptions settings with output := some ⟨outputLabel, false⟩ }) :
      Carried files fuel directory source settings .repl (.interactive interaction)

section Perform

variable {files : Files Id} {fuel : Nat} {surroundings : Surroundings} {task : Task}
  {directory source path : Text} {settings : Settings} {config : Config} {inFront after : Flags}

theorem sourceArgument_eq_ok_iff {arguments : List Text} :
    sourceArgument arguments = .ok path ↔ arguments = [path] := by
  rcases arguments with _ | ⟨first, _ | ⟨second, rest⟩⟩ <;> simp [sourceArgument]

theorem exists_resolved [Config.Decoder]
    (loaded : Settings.load files directory inFront after source = .ok settings) :
    ∃ config, Config.resolve files directory ((after.over inFront).config.getD [])
      (Settings.origin source) = .ok config ∧ settings = Settings.combine config inFront after := by
  rw [Settings.load_eq] at loaded
  split at loaded
  · next config resolved =>
      cases loaded
      exact ⟨config, resolved, rfl⟩
  · cases loaded

theorem color_combine (sound : config.Sound) (inFront after : Flags) :
    Config.isColorMode (Settings.combine config inFront after).color = true := by
  rw [Settings.combine]
  dsimp only
  split
  · decide
  · exact sound.color

theorem scale_combine (sound : config.Sound) (inFront after : Flags) :
    (Settings.combine config inFront after).scale.isFinite = true ↔
      ∀ factor, (after.over inFront).scale = some factor → factor.isFinite = true := by
  change ((after.over inFront).scale.getD config.scale).isFinite = true ↔ _
  cases (after.over inFront).scale with
  | none => simp [sound.scale]
  | some factor => simp

theorem openSession_session (files : Files Id) (home : Option Text) (settings : Settings) :
    (openSession files home settings).session =
      Session.new settings.strict settings.scale settings.colored := by
  unfold openSession
  dsimp only [bind, pure]
  split
  · rfl
  · split
    · rfl
    · split <;> rfl

theorem options_stages {strict colored : Bool} {scale : Float} {script : List Input}
    {stage : Session.Stage}
    (member : stage ∈ (Session.new strict scale colored).stages fuel script) :
    stage.session.options = (Session.new strict scale colored).options := by
  obtain ⟨before, after, split⟩ := List.append_of_mem member
  exact ((Session.new_prompted strict scale colored).at_stage split).options

theorem perform_of_error [Config.Decoder] (named : task.source = .ok source) {error : ConfigError}
    (failed : Settings.load files surroundings.directory task.inFront task.after source =
      .error error) :
    perform files fuel surroundings task = .finished (unloadable error) := by
  obtain ⟨action, inFront, after, arguments⟩ := task
  cases action with
  | run | check =>
      cases sourceArgument_eq_ok_iff.mp named
      refine congrArg Outcome.finished (withSource_path.trans ?_)
      rw [failed]
  | repl =>
      cases named
      unfold perform
      dsimp only [bind, pure]
      rw [failed]

theorem carried_withSource [Config.Decoder] {action : Action} {use : Settings → Program → Report}
    (takesSource : action ≠ .repl)
    (loaded : Settings.load files directory inFront after path = .ok settings)
    (used : ∀ {program : Source}, Source.load files directory path = .ok program →
      Carried files fuel directory path settings action
        (.finished (use settings program.program))) :
    Carried files fuel directory path settings action
      (.finished (withSource files directory ⟨action, inFront, after, [path]⟩ use)) := by
  rw [withSource_path, loaded]
  dsimp only
  cases read : Source.load files directory path with
  | ok program => exact used read
  | error error => exact .broken takesSource read

theorem perform_of_loaded [Config.Decoder] (named : task.source = .ok source)
    (loaded : Settings.load files surroundings.directory task.inFront task.after source =
      .ok settings) :
    Carried files fuel surroundings.directory source settings task.action
      (perform files fuel surroundings task) := by
  obtain ⟨action, inFront, after, arguments⟩ := task
  cases action with
  | run =>
      cases sourceArgument_eq_ok_iff.mp named
      exact carried_withSource (by simp) loaded .run
  | check =>
      cases sourceArgument_eq_ok_iff.mp named
      exact carried_withSource (by simp) loaded .check
  | repl =>
      cases named
      unfold perform
      dsimp only [bind, pure]
      rw [loaded]
      refine .session fun script stage member => ?_
      rw [openSession_session] at member
      exact options_stages member

end Perform

/-- Settings are checked, but for the scale that a flag gives. Those that a command line gets to
have a known color mode and come from a sound configuration, and all programs are run with them;
their scale is finite unless the flag that counts names a number that is not. A file that is not
sound is refused whatever the flags are, and where there are no settings nothing is run. -/
theorem settings_checked [Config.Decoder] [FlagReader] (faithful : FlagReader.Faithful)
    {terminal : Bool} {arguments : List Text} {task : Task} {source : Text}
    (asked : request terminal arguments = .task task) (named : task.source = .ok source)
    (files : Files Id) (fuel : Nat) (surroundings : Surroundings) :
    let directory := surroundings.directory
    let explicit := (task.after.over task.inFront).config.getD []
    let loaded := Settings.load files directory task.inFront task.after source
    let outcome := perform files fuel surroundings task
    (∀ settings, loaded = .ok settings →
      settings.config.Sound ∧ Config.isColorMode settings.color = true ∧
      ((runOptions settings).scale.isFinite = true ↔
        ∀ word, CountingScale arguments word → ¬Reading.Nonfinite word.chars) ∧
      Carried files fuel directory source settings task.action outcome) ∧
    (∀ error, loaded = .error error → outcome = .finished (unloadable error)) ∧
    ∀ path contents found, Config.Chosen files directory explicit (Settings.origin source) path →
      files.read (Path.absolute directory path) = .ok contents →
        Config.Decoder.decode contents = .ok found →
      let config := Config.ofFields (Path.absolute directory path) found
      ¬config.Sound → loaded = .error (.invalid config.path config.issues) := by
  intro directory explicit loaded outcome
  obtain ⟨inFront, after, asks, same, same'⟩ := asks_of_request faithful asked
  refine ⟨fun settings ok => ?_, fun error failed => perform_of_error named failed, ?_⟩
  · obtain ⟨config, resolved, rfl⟩ := exists_resolved ok
    have sound := Config.resolve_sound resolved
    refine ⟨sound, color_combine sound _ _, (scale_combine sound _ _).trans ?_,
      perform_of_loaded named ok⟩
    rw [same, same']
    constructor
    · intro finite word counts names
      obtain ⟨number, read, infinite⟩ := Reading.float_of_nonfinite names
      have given := (over_scale_eq_some_iff asks).mpr ⟨word, counts, read⟩
      exact absurd (finite number given) (by simp [infinite])
    · intro others factor given
      obtain ⟨word, counts, read⟩ := (over_scale_eq_some_iff asks).mp given
      exact (Reading.isFinite_float_iff read).mpr (others word counts)
  · intro path contents found chosen read decoded config unsound
    have refused := Config.decode_of_unsound decoded unsound
    rw [← Config.load_of_read chosen.ne_nil read, ← chosen.resolve] at refused
    exact Settings.load_eq.trans (by rw [refused]; rfl)

def comparing : Text := text "printf(\"\x7b\x7d\", 1.0 < 2.0);"

def comparingFile : Files Id where
  stat _ := .error .notFound
  read path := if path = text "/main.rv" then .ok comparing else .error .notFound
  create _ _ := false

def infiniteScale : Text := text "float_comparison_scale: .inf\n"

def infiniteFile : Files Id where
  stat path := if path = text "/rover.yml" then .ok .file else .error .notFound
  read path := if path = text "/rover.yml" then .ok infiniteScale else comparingFile.read path
  create _ _ := false

def infiniteIssue : Text := text "float_comparison_scale must be a finite number"

theorem decode_infiniteScale :
    ∃ found, Config.Decoder.decode infiniteScale = .ok found ∧
      (Config.ofFields (text "/rover.yml") found).issues = [infiniteIssue] := by
  have passes : (Config.Decoder.decode infiniteScale).toOption.any (fun found =>
      (Config.ofFields (text "/rover.yml") found).issues = [infiniteIssue]) = true := by
    decide +kernel
  obtain ⟨found, decoded, issues⟩ := exists_ok passes
  exact ⟨found, decoded, by simpa using issues⟩

/-- Flags for a finite scale in front of a command, and for an infinite one after it. -/
def infiniteArguments : List Text :=
  [text "--float-scale=0", text "run", text "main.rv", text "--float-scale", text "-Infinity"]

theorem reads_infinite :
    Reads (runFlags ++ helpFlags)
      (flagsFirst [text "main.rv", text "--float-scale", text "-Infinity"])
        [.scale (Binary64.infinity true)] [text "main.rv"] ∧
      LastScale (runFlags ++ helpFlags) (text "-Infinity")
        (flagsFirst [text "main.rv", text "--float-scale", text "-Infinity"]) := by
  have read : Reading.float (text "-Infinity") = .ok (Binary64.infinity true) := by cbv
  have moved : flagsFirst [text "main.rv", text "--float-scale", text "-Infinity"] =
      [text "--float-scale", text "-Infinity"] ++ [text "main.rv"] := rfl
  have given : ScaleWords (text "-Infinity") [text "--float-scale", text "-Infinity"] := .apart .two
  have rest : Reads (runFlags ++ helpFlags) [text "main.rv"] [] [text "main.rv"] := .plain rfl
  rw [moved]
  exact ⟨.flag (given.spelled (by decide) read) rest, .here given read rest fun _ =>
    List.not_mem_nil⟩

theorem settings_checked_infinite :
    ∃ task, request false infiniteArguments = .task task ∧ task.source = .ok (text "main.rv") ∧
      (∃ settings,
        Settings.load comparingFile (text "/") task.inFront task.after
          (text "main.rv") = .ok settings ∧
        settings.config.Sound ∧ CountingScale infiniteArguments (text "-Infinity") ∧
        Reading.Nonfinite (text "-Infinity").chars ∧ ¬(runOptions settings).scale.isFinite = true) ∧
      perform infiniteFile 1 ⟨text "/", none, false⟩ task =
        .finished (unloadable (.invalid (text "/rover.yml") [infiniteIssue])) := by
  have zero : Reading.float (text "0") = .ok (Float.ofBits 0) := by cbv
  have given : ScaleWords (text "0") [text "--float-scale=0"] := .joined .two
  have front : Reads globalFlags infiniteArguments [.scale (Float.ofBits 0)]
      [text "run", text "main.rv", text "--float-scale", text "-Infinity"] :=
    .flag (given.spelled (by decide) zero) (.plain rfl)
  have named : Command.named? (text "run") = some .run := rfl
  obtain ⟨behind, last⟩ := reads_infinite
  have asks :
      Asks false infiniteArguments .run [.scale (Float.ofBits 0)] [.scale (Binary64.infinity true)]
      [text "main.rv"] :=
    .command front ⟨rfl, rfl⟩ rfl named rfl behind ⟨rfl, rfl⟩
  have asked := request_of_asks readFlags_faithful asks
  have names : Reading.Nonfinite (text "-Infinity").chars := by
    have spelled : (text "-Infinity").chars = '-' :: "Infinity".toList := by cbv
    rw [spelled]
    exact .signed (.inr rfl) (.inr (by decide))
  have counts : CountingScale infiniteArguments (text "-Infinity") := .after front named last
  refine ⟨_, asked, rfl, ?_, ?_⟩
  · have loaded : Settings.load comparingFile (text "/") (.ofSettings [.scale (Float.ofBits 0)])
        (.ofSettings [.scale (Binary64.infinity true)]) (text "main.rv") = .ok _ :=
      Settings.load_of_resolve rfl
    obtain ⟨checked, -, -⟩ := settings_checked readFlags_faithful asked rfl comparingFile 1
      ⟨text "/", none, false⟩
    obtain ⟨sound, -, finite, -⟩ := checked _ loaded
    exact ⟨_, loaded, sound, counts, names, fun bounded => finite.mp bounded _ counts names⟩
  · obtain ⟨found, decoded, issues⟩ := decode_infiniteScale
    obtain ⟨-, failed, refused⟩ := settings_checked readFlags_faithful asked rfl infiniteFile 1
      ⟨text "/", none, false⟩
    have unsound : ¬(Config.ofFields (text "/rover.yml") found).Sound := by
      intro sound
      rw [Config.issues_eq_nil_iff.mpr sound] at issues
      cases issues
    have chosen : Config.Chosen infiniteFile (text "/") [] (Settings.origin (text "main.rv"))
        (text "/rover.yml") := .nearest rfl rfl
    refine failed _ ((refused _ _ _ chosen rfl decoded unsound).trans ?_)
    exact congrArg
      (fun issues => Except.error (ConfigError.invalid (text "/rover.yml") issues)) issues

theorem perform_comparing {inFront after : Flags} (unnamed : (after.over inFront).config = none)
    (runs : (parse comparing).toOption.any (fun program =>
      runProgram (Settings.combine Config.default inFront after) 1 program =
        shown (text "0") 0) = true) :
    Settings.load comparingFile (text "/") inFront after (text "main.rv") =
        .ok (Settings.combine Config.default inFront after) ∧
      perform comparingFile 1 ⟨text "/", none, false⟩ ⟨.run, inFront, after, [text "main.rv"]⟩ =
        .finished (shown (text "0") 0) := by
  have loaded : Settings.load comparingFile (text "/") inFront after (text "main.rv") =
      .ok (Settings.combine Config.default inFront after) := by
    apply Settings.load_of_resolve
    rw [unnamed]
    rfl
  obtain ⟨program, parsed, runs⟩ := exists_parsed runs
  have loads : Loads comparingFile (text "/") inFront after [text "main.rv"] _ program :=
    .intro loaded (by decide) rfl parsed
  refine ⟨loaded, congrArg Outcome.finished ((withSource_of_loads loads).trans ?_)⟩
  simpa using runs

/-- A flag that names a number that is not finite is not refused. The program is run with it, and
finds that one is not less than two. -/
theorem scale_flag_unchecked :
    (∃ task settings,
      request false [text "run", text "--float-scale=inf", text "main.rv"] = .task task ∧
      Settings.load comparingFile (text "/") task.inFront task.after
        (text "main.rv") = .ok settings ∧
      settings.scale.isInf = true ∧
      perform comparingFile 1 ⟨text "/", none, false⟩ task = .finished (shown (text "0") 0)) ∧
    ∃ task settings, request false [text "--float-scale", text "NaN", text "main.rv"] = .task task ∧
      Settings.load comparingFile (text "/") task.inFront task.after
        (text "main.rv") = .ok settings ∧
      settings.scale.isNaN = true ∧
      perform comparingFile 1 ⟨text "/", none, false⟩ task = .finished (shown (text "0") 0) := by
  have infinite : Reading.float (text "inf") = .ok (Binary64.infinity false) := by cbv
  have notNumber : Reading.float (text "NaN") = .ok Binary64.nan := by cbv
  have named : Command.named? (text "run") = some .run := rfl
  constructor
  · have given : ScaleWords (text "inf") [text "--float-scale=inf"] := .joined .two
    have moved : flagsFirst [text "--float-scale=inf", text "main.rv"] =
        [text "--float-scale=inf"] ++ [text "main.rv"] := rfl
    have behind : Reads (runFlags ++ helpFlags)
        (flagsFirst [text "--float-scale=inf", text "main.rv"])
        [.scale (Binary64.infinity false)] [text "main.rv"] := by
      rw [moved]
      exact .flag (given.spelled (by decide) infinite) (.plain rfl)
    have asks : Asks false [text "run", text "--float-scale=inf", text "main.rv"] .run []
        [.scale (Binary64.infinity false)] [text "main.rv"] :=
      .command (.plain rfl) ⟨rfl, rfl⟩ rfl named rfl behind ⟨rfl, rfl⟩
    obtain ⟨loaded, performed⟩ := @perform_comparing (.ofSettings [])
      (.ofSettings [.scale (Binary64.infinity false)]) rfl (by decide +kernel)
    exact ⟨_, _, request_of_asks readFlags_faithful asks, loaded, by decide, performed⟩
  · have given : ScaleWords (text "NaN") [text "--float-scale", text "NaN"] := .apart .two
    have front : Reads globalFlags [text "--float-scale", text "NaN", text "main.rv"]
        [.scale Binary64.nan]
        [text "main.rv"] :=
      .flag (given.spelled (by decide) notNumber) (.plain rfl)
    have asks : Asks false [text "--float-scale", text "NaN", text "main.rv"] .run
        [.scale Binary64.nan]
        [.scale Binary64.nan] [text "main.rv"] :=
      .source front ⟨rfl, rfl⟩ rfl rfl
    obtain ⟨loaded, performed⟩ := @perform_comparing (.ofSettings [.scale Binary64.nan])
      (.ofSettings [.scale Binary64.nan]) rfl (by decide +kernel)
    exact ⟨_, _, request_of_asks readFlags_faithful asks, loaded, by decide, performed⟩

end Cli
end Rover
