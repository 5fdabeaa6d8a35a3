import Rover.Token
import Rover.Text.Space

namespace Rover

structure Diagnostic where
  message : Text
  pos : Pos
  deriving DecidableEq, Repr

namespace Diagnostic

def shown (diagnostic : Diagnostic) : Text :=
  diagnostic.pos.shown ++ text ": " ++ diagnostic.message

def summary : List Diagnostic → Text
  | [] => text "parser: syntax error"
  | [single] => text "parser: " ++ single.shown
  | diagnostics =>
      text "parser: " ++ Text.ofNat diagnostics.length ++ text " syntax errors"
        ++ diagnostics.flatMap fun diagnostic => text "\n  " ++ diagnostic.shown

/-- Where a diagnostic is: as much of path, line and column as is known. -/
def location (path : Text) (pos : Pos) : Text :=
  let path := path.trim
  if path ≠ [] then
    if 0 < pos.line ∧ 0 < pos.col then path ++ text ":" ++ pos.shown
    else if 0 < pos.line then path ++ text ":" ++ Text.ofInt pos.line
    else path
  else if 0 < pos.line ∧ 0 < pos.col then pos.shown
  else []

def describe (path : Text) (diagnostic : Diagnostic) : Text :=
  let location := location path diagnostic.pos
  let message := diagnostic.message.trim
  if location = [] then message else location ++ text " " ++ message

def report (path : Text) (diagnostics : List Diagnostic) : Text :=
  if diagnostics = [] then path ++ text ": syntax error"
  else Text.join (text "\n") (diagnostics.map (describe path))

end Diagnostic
end Rover
