import Rover.File
import Rover.Program.Parser

namespace Rover

structure Source where
  path : Text
  text : Text
  program : Program

inductive SourceError where
  | emptyPath
  | unread (path : Text) (failure : FileFailure)
  | rejected (path : Text) (diagnostics : List Diagnostic)
  deriving DecidableEq, Repr

namespace SourceError

def message : SourceError → Text
  | emptyPath => Rover.text "driver: empty path"
  | unread path failure => Rover.text "driver: read " ++ path ++ Rover.text ": " ++ failure.message
  | rejected path diagnostics => Diagnostic.report path diagnostics

/-- The lines that report an error: one for each diagnostic, or the message. -/
def lines : SourceError → List Text
  | rejected path diagnostics => diagnostics.map (Diagnostic.describe path)
  | error => [error.message]

end SourceError

def Source.load {m : Type → Type} [Monad m] (files : Files m) (directory path : Text) :
    m (Except SourceError Source) := do
  if path.isEmpty then return .error .emptyPath
  let whole := Path.absolute directory path
  match ← files.read whole with
  | .error error => return .error (.unread path (.ofRead whole error))
  | .ok contents =>
      match parse contents with
      | .ok program => return .ok ⟨path, contents, program⟩
      | .error diagnostics => return .error (.rejected path diagnostics)

end Rover
