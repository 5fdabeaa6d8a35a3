import Rover.Cli.Buffer
import Rover.Cli.Help
import Rover.Cli.Settings
import Rover.Config.Document
import Rover.History
import Rover.Session
import Rover.Source

/-!
The command line. A command line is first read, without looking at any file, into a request. A
request is then carried out: it ends with a report, or it opens an interactive session.
-/

namespace Rover
namespace Cli

inductive Ending where
  | exit (code : Nat)
  | crash (stop : Stop)
  deriving DecidableEq, Repr

structure Report where
  events : List Event
  ending : Ending
  deriving DecidableEq, Repr

def shown (bytes : Text) (code : Nat) : Report :=
  ⟨[Session.say bytes], .exit code⟩

/-- A line on the error stream, after which nothing more is done. -/
def refused (message : Text) : Report :=
  ⟨[Session.complaint false (message ++ text "\n")], .exit 1⟩

def misused (help message : Text) : Report :=
  ⟨Session.say help :: (refused message).events, .exit 1⟩

inductive Action where
  | run
  | check
  | repl
  deriving DecidableEq, Repr

structure Task where
  action : Action
  inFront : Flags
  after : Flags
  arguments : List Text

inductive Request where
  /-- Nothing is left to be done. -/
  | answered (report : Report)
  | task (task : Task)

def looksLikeFlag (argument : Text) : Bool :=
  argument.startsWith [dash] && argument != [dash]

/-- The arguments of a command with the flags moved to the front: from the first flag up to a double
dash, or to the end. -/
def flagsFirst (arguments : List Text) : List Text :=
  let isTerminator (argument : Text) : Bool := argument == [dash, dash]
  let before := arguments.takeWhile (!isTerminator ·)
  before.dropWhile (!looksLikeFlag ·) ++ before.takeWhile (!looksLikeFlag ·)
    ++ arguments.dropWhile (!isTerminator ·)

def helpOn : List Text → Report
  | [] => shown programHelp 0
  | topic :: _ =>
      if topic.isEmpty then shown namelessHelp 0
      else
        match Command.named? topic with
        | some command => shown command.manual 0
        | none =>
            ⟨[Session.complaint false (text "No help topic for '" ++ topic ++ text "'\n")],
              .exit 3⟩

def Command.request [FlagReader] (command : Command) (inFront : Flags) (arguments : List Text) :
    Request :=
  let reading := FlagReader.read (command.ownFlags ++ helpFlags) (flagsFirst arguments)
  match bothForms? reading.settings, reading.error with
  | some error, _ =>
      .answered (misused (error.message ++ text "\n\n" ++ command.manual) error.message)
  | none, some error =>
      .answered
        (misused (text "Incorrect Usage: " ++ error.message ++ text "\n\n" ++ command.manual)
        error.message)
  | none, none =>
      if asksHelp reading.settings then .answered (shown command.manual 0)
      else
        let task (action : Action) : Request :=
          .task ⟨action, inFront, .ofSettings reading.settings, reading.arguments⟩
        match command with
        | .run => task .run
        | .check => task .check
        | .repl => task .repl
        | .help => .answered (helpOn reading.arguments)

/-- The request that a command line makes. Without a command it runs a source file; without any
argument it starts a session on a terminal and else shows the help. -/
def request [FlagReader] (terminal : Bool) (arguments : List Text) : Request :=
  let reading := FlagReader.read globalFlags arguments
  let flags := Flags.ofSettings reading.settings
  match bothForms? reading.settings, reading.error with
  | some error, _ =>
      .answered (misused (error.message ++ text "\n" ++ programHelp) error.message)
  | none, some error =>
      .answered (misused (text "Incorrect Usage. " ++ error.message ++ text "\n\n" ++ programHelp)
        error.message)
  | none, none =>
      if asksHelp reading.settings then .answered (shown programHelp 0)
      else if asksVersion reading.settings then
        .answered (shown (programName ++ text " version " ++ programVersion ++ text "\n") 0)
      else
        match reading.arguments with
        | [] =>
            if terminal then .task ⟨.repl, flags, flags, []⟩
            else .answered (shown programHelp 1)
        | first :: rest =>
            match Command.named? first with
            | some command => command.request flags rest
            | none => .task ⟨.run, flags, flags, first :: rest⟩

def sourceArgument : List Text → Except Text Text
  | [] => .error (text "missing source file argument")
  | [path] => .ok path
  | _ :: others =>
      .error (text "unexpected arguments: [" ++ Text.join (text " ") others ++ text "]")

def runOptions (settings : Settings) : Options :=
  ⟨settings.strict, settings.scale, some ⟨outputLabel, true⟩, some ⟨errorLabel, false⟩⟩

/-- What a program writes when it is run. Its output is held back, also from the errors that a
`printf` meets on its way, but it comes before the error that ends the run. -/
def runProgram (settings : Settings) (fuel : Nat) (program : Program) : Report :=
  let (stop, machine) := Machine.new.after (program.run (runOptions settings) fuel)
  let painted := machine.events.toList.map (Session.paint settings.colored)
  let written := Buffer.through outputLabel [] painted
  match stop with
  | none => ⟨written, .exit 0⟩
  | some (.crash crash) => ⟨written, .crash (.crash crash)⟩
  | some stop =>
      ⟨written ++ [Session.complaint settings.colored
        (text "runtime error: " ++ stop.message ++ text "\n")], .exit 1⟩

def unloadable (error : ConfigError) : Report :=
  refused (text "failed to load config: " ++ error.message)

variable {m : Type → Type} [Monad m]

def withSource [Config.Decoder] (files : Files m) (directory : Text) (task : Task)
    (use : Settings → Program → Report) : m Report := do
  match sourceArgument task.arguments with
  | .error message => return refused message
  | .ok path =>
      match ← Settings.load files directory task.inFront task.after path with
      | .error error => return unloadable error
      | .ok settings =>
          match ← Source.load files directory path with
          | .ok source => return use settings source.program
          | .error error =>
              return ⟨error.lines.map fun line =>
                Session.complaint settings.colored (line ++ text "\n"), .exit 1⟩

/-- A session that is about to ask for its first line. An empty path keeps no history. -/
structure Interaction where
  opening : List Event
  session : Session
  historyPath : Text
  history : List Text

def banner : Text :=
  programName ++ text " " ++ programVersion ++ text ". Type :help for commands.\n"

def openSession (files : Files m) (home : Option Text) (settings : Settings) : m Interaction := do
  let session := Session.new settings.strict settings.scale settings.colored
  match settings.config.historyPath home with
  | .error message =>
      return ⟨[Session.complaint false (text "warning: " ++ message ++ text "\n"),
        Session.say banner], session, [], []⟩
  | .ok path =>
      if path.isEmpty then return ⟨[Session.say banner], session, [], []⟩
      match ← files.read path with
      | .ok contents => return ⟨[Session.say banner], session, path, History.read contents⟩
      | .error _ => return ⟨[Session.say banner], session, path, []⟩

namespace Interaction

/-- Adds the inputs of a session to the history file. A file that cannot be written is left. -/
def close (files : Files m) (interaction : Interaction) (session : Session) : m Unit := do
  if !interaction.historyPath.isEmpty then
    let history := session.history.foldl History.add interaction.history
    let _ ← files.create interaction.historyPath (History.written history)

def ending : Status → Ending
  | .crashed stop => .crash stop
  | .open | .closed => .exit 0

def play (files : Files m) (fuel : Nat) (interaction : Interaction) (input : Text) :
    m Report := do
  let played := interaction.session.play fuel ((Line.all input).map fun line => .line line.bytes)
  interaction.close files played.session
  return ⟨interaction.opening ++ played.exchanges.flatMap fun exchange =>
    Session.say exchange.prompt :: exchange.events, ending played.status⟩

end Interaction

inductive Outcome where
  | finished (report : Report)
  | interactive (interaction : Interaction)

structure Surroundings where
  directory : Text
  home : Option Text
  /-- Whether input comes from a terminal. -/
  terminal : Bool

/-- Carries out a task. -/
def perform [Config.Decoder] (files : Files m) (fuel : Nat) (surroundings : Surroundings)
    (task : Task) : m Outcome := do
  let directory := surroundings.directory
  match task.action with
  | .run =>
      return .finished (← withSource files directory task (runProgram · fuel ·))
  | .check =>
      return .finished (← withSource files directory task fun _ _ => shown (text "ok\n") 0)
  | .repl =>
      match ← Settings.load files directory task.inFront task.after [] with
      | .error error => return .finished (unloadable error)
      | .ok settings => return .interactive (← openSession files surroundings.home settings)

/-- Reads a command line and carries it out, up to the first prompt. -/
def start [Config.Decoder] [FlagReader] (files : Files m) (fuel : Nat)
    (surroundings : Surroundings) (arguments : List Text) : m Outcome :=
  match request surroundings.terminal arguments with
  | .answered report => return .finished report
  | .task task => perform files fuel surroundings task

def run [Config.Decoder] [FlagReader] (files : Files m) (fuel : Nat) (surroundings : Surroundings)
    (arguments : List Text) (input : Text) : m Report := do
  match ← start files fuel surroundings arguments with
  | .finished report => return report
  | .interactive interaction => interaction.play files fuel input

end Cli
end Rover
