import Rover.Execution
import Rover.Program.Parser
import Rover.Text.Lower

/-!
An interactive session runs one input after another on the same machine, so that definitions stay.
Lines are collected until their brackets are closed. A session never starts a prompt in the middle
of an output line.
-/

namespace Rover

inductive Input where
  | line (bytes : Text)
  /-- The user gave up the lines typed so far. -/
  | aborted
  | failed
  | ended
  deriving DecidableEq, Repr

inductive Status where
  | open
  | closed
  | crashed (stop : Stop)
  deriving DecidableEq, Repr

def outputLabel : Text := text "out"

def errorLabel : Text := text "err"

def red : Text := text "\x1b[31m"

structure Session where
  machine : Machine
  options : Options
  colored : Bool
  /-- Whether the output is at the start of a line. -/
  lineStart : Bool
  /-- The lines collected so far, with line breaks between them. -/
  pending : Text
  /-- The inputs that were not blank. -/
  history : List Text

structure Turn where
  session : Session
  events : List Event
  status : Status

namespace Session

def new (strict : Bool) (scale : Float) (colored : Bool) : Session where
  machine := .new
  options := ⟨strict, scale, some ⟨outputLabel, false⟩, some ⟨errorLabel, false⟩⟩
  colored := colored
  lineStart := true
  pending := []
  history := []

def prompt (session : Session) : Text :=
  if session.pending.isEmpty then text "rover> " else text "  ...> "

def lineStartAfter (lineStart : Bool) (events : List Event) : Bool :=
  events.foldl
    (fun lineStart event =>
      match event with
      | .wrote label bytes =>
          if label = outputLabel then (bytes.getLast?.map (· == 10)).getD lineStart else lineStart
      | .flushed => lineStart)
    lineStart

/-- A write to the error stream, in red if colors are on. -/
def complaint (colored : Bool) (bytes : Text) : Event :=
  .wrote errorLabel (if colored then red ++ bytes else bytes)

def paint (colored : Bool) : Event → Event
  | .wrote label bytes =>
      if label = errorLabel then complaint colored bytes else .wrote label bytes
  | .flushed => .flushed

def lineEnd (lineStart : Bool) : List Event :=
  if lineStart then [] else [.wrote outputLabel (text "\n")]

def say (bytes : Text) : Event := .wrote outputLabel bytes

def wrote (session : Session) (events : List Event) (status : Status) : Turn :=
  ⟨{ session with lineStart := lineStartAfter session.lineStart events }, events, status⟩

/-- Runs a source. A runtime error that stops it is reported at the start of a line, and an output
line that it leaves unfinished is ended. -/
def run (session : Session) (fuel : Nat) (source : Text) : Turn :=
  match parse source with
  | .error diagnostics =>
      let events := diagnostics.map fun diagnostic =>
        complaint session.colored (diagnostic.shown ++ text "\n")
      session.wrote (events ++ lineEnd session.lineStart) .open
  | .ok program =>
      let (stop, after) :=
        { session.machine with events := #[] }.after (program.run session.options fuel)
      let written := after.events.toList.map (paint session.colored)
      let session := { session with machine := { after with events := #[] } }
      let ended := written ++ lineEnd (lineStartAfter session.lineStart written)
      match stop with
      | none => session.wrote ended .open
      | some (.crash crash) => session.wrote ended (.crashed (.crash crash))
      | some stop =>
          session.wrote
            (ended ++ [complaint session.colored
              (text "runtime error: " ++ stop.message ++ text "\n")])
            .open

inductive Command where
  | quit
  | vars
  | builtins
  | help
  | unknown
  deriving DecidableEq, Repr

def Command.ofText (name : Text) : Command :=
  let name := name.lower
  if name ∈ [":quit", ":q", ":exit"].map text then .quit
  else if name = text ":vars" then .vars
  else if name = text ":builtins" then .builtins
  else if name = text ":help" then .help
  else .unknown

def describeBinding (name : Text) (binding : Binding Value) : Text :=
  text (if binding.constant then "const " else "var ") ++ name ++ text " = "
    ++ binding.value.inspect ++ text "\n"

def obey (session : Session) (name : Text) : Turn :=
  match Command.ofText name with
  | .quit => session.wrote [] .closed
  | .vars =>
      session.wrote
        (session.machine.globals.listing.map fun (name, binding) =>
          say (describeBinding name binding))
        .open
  | .builtins =>
      session.wrote
        [say (Text.join (text " ") (Text.sorted (Builtin.all.map (·.name))) ++ text "\n")] .open
  | .help =>
      session.wrote
        [say (text ":vars      list global bindings\n"),
          say (text ":builtins  list built-in functions\n"),
          say (text ":quit      leave the session\n")] .open
  | .unknown =>
      session.wrote
        [say (text "unknown command " ++ name ++ text ". Type :help for commands.\n")] .open

/-- A complete input: a blank one is ignored, all others go into the history. -/
def accept (session : Session) (fuel : Nat) (source : Text) : Turn :=
  let session := { session with pending := [] }
  let name := source.trim
  if name.isEmpty then session.wrote [] .open
  else
    let session := { session with history := session.history ++ [source.replace 10 32] }
    if name.startsWith (text ":") then session.obey name else session.run fuel source

/-- The lines collected so far with one more. -/
def extended (session : Session) (bytes : Text) : Text :=
  if session.pending.isEmpty then bytes else session.pending ++ text "\n" ++ bytes

def receive (session : Session) (fuel : Nat) : Input → Turn
  | .line bytes =>
      let source := session.extended bytes
      if openDepth source ≤ 0 then session.accept fuel source
      else { session with pending := source }.wrote [] .open
  | .aborted => { session with pending := [] }.wrote [] .open
  | .ended =>
      if session.pending.isEmpty then session.wrote [say (text "\n")] .closed
      else session.accept fuel session.pending
  | .failed => session.wrote [say (text "\n")] .closed

/-- One prompt and what was written after it was answered. -/
structure Exchange where
  prompt : Text
  events : List Event

structure Transcript where
  exchanges : List Exchange
  session : Session
  unread : Nat
  status : Status

/-- Answers the prompts from a list of inputs, after which the input has ended. Lines that are still
pending then make one more input. -/
def play (fuel : Nat) : (session : Session) → List Input → Transcript
  | session, [] =>
      let turn := session.receive fuel .ended
      let first : Exchange := ⟨session.prompt, turn.events⟩
      if turn.status = .open then
        let last := turn.session.receive fuel .ended
        ⟨[first, ⟨turn.session.prompt, last.events⟩], last.session, 0, last.status⟩
      else ⟨[first], turn.session, 0, turn.status⟩
  | session, input :: inputs =>
      let turn := session.receive fuel input
      let first : Exchange := ⟨session.prompt, turn.events⟩
      if turn.status = .open then
        let others := play fuel turn.session inputs
        { others with exchanges := first :: others.exchanges }
      else ⟨[first], turn.session, inputs.length, turn.status⟩

end Session
end Rover
