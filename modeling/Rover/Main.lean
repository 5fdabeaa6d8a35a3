import Rover.Cli

namespace Rover
namespace Console

def toText (bytes : ByteArray) : Text := bytes.toList

def ofText (bytes : Text) : ByteArray := ⟨bytes.toArray⟩

/-- The error with a number, which some calls give with a minus sign. -/
def errorNumbered (code : UInt32) (details : String) : FileError :=
  match min code (0 - code) with
  | 2 => .notFound
  | 20 => .notDirectory
  | 21 => .isDirectory
  | 22 => .invalidName
  | 36 => .nameTooLong
  | _ => .other (text details)

def fileError : IO.Error → FileError
  | .noFileOrDirectory _ code details => errorNumbered code details
  | .inappropriateType _ code details => errorNumbered code details
  | .invalidArgument _ code details => errorNumbered code details
  | error => .other (text (toString error))

def readFile (path : Text) : IO (Except FileError Text) := do
  match String.fromUTF8? (ofText path) with
  | none => return .error .notFound
  | some name =>
      try
        return .ok (toText (← IO.FS.readBinFile name))
      catch error => return .error (fileError error)

def createFile (path contents : Text) : IO Bool := do
  match String.fromUTF8? (ofText path) with
  | none => return false
  | some name =>
      try
        IO.FS.writeBinFile name (ofText contents)
        return true
      catch _ => return false

/-- What a path names shows when it is read. -/
def statFile (path : Text) : IO (Except FileError FileKind) := do
  match ← readFile path with
  | .ok _ => return .ok .file
  | .error .isDirectory => return .ok .directory
  | .error error => return .error error

def systemFiles : Files IO := ⟨statFile, readFile, createFile⟩

def emit (events : List Event) : IO Unit := do
  for event in events do
    match event with
    | .wrote label bytes =>
        let stream ← if label = errorLabel then IO.getStderr else IO.getStdout
        stream.write (ofText bytes)
        stream.flush
    | .flushed => (← IO.getStdout).flush

partial def fill (input : IO.FS.Stream) (buffer : Text) : IO Text := do
  if Line.isDecided buffer then return buffer
  let byte ← input.read 1
  if byte.isEmpty then return buffer
  fill input (buffer ++ toText byte)

def exit : Cli.Ending → IO UInt32
  | .exit code => return code.toUInt32
  | .crash stop => do
      emit [Session.complaint false (text "panic: " ++ stop.message ++ text "\n")]
      return 2

partial def converse (input : IO.FS.Stream) (interaction : Cli.Interaction) (session : Session)
    (buffer : Text) : IO UInt32 := do
  emit [Session.say session.prompt]
  let buffer ← fill input buffer
  let (line, length) := Line.first buffer
  let turn := session.receive manyRounds (if buffer.isEmpty then .ended else .line line.bytes)
  emit turn.events
  if turn.status = .open then converse input interaction turn.session (buffer.drop length)
  else
    interaction.close systemFiles turn.session
    exit (Cli.Interaction.ending turn.status)

def commandLine (arguments : List String) : IO UInt32 := do
  let input ← IO.getStdin
  let home := (← IO.getEnv "HOME").filter (!·.isEmpty)
  let surroundings : Cli.Surroundings :=
    ⟨text (← IO.currentDir).toString, home.map text, ← input.isTty⟩
  match ← Cli.start systemFiles manyRounds surroundings (arguments.map text) with
  | .finished report =>
      emit report.events
      exit report.ending
  | .interactive interaction =>
      emit interaction.opening
      converse input interaction interaction.session []

end Console
end Rover

def main (arguments : List String) : IO UInt32 :=
  Rover.Console.commandLine arguments
