import Rover.File
import Rover.Text.Lower
import Rover.Text.Space
import Rover.Yaml.Problem

/-!
Settings come from a file `rover.yml`, which is looked for from a directory upwards. Every setting
has a default, and a file is refused if no fields can be decoded from it, or if it holds values
that make no sense. The format of the file is left to a decoder.
-/

namespace Rover

structure Config where
  path : Text
  strict : Bool
  scale : Float
  color : Text
  historyFile : Text

structure SyntaxFailure where
  path : Text
  message : Text
  deriving DecidableEq, Repr

inductive ConfigError where
  | emptyPath
  | unopened (path : Text) (failure : FileFailure)
  | unread (path : Text) (failure : FileFailure)
  | malformed (failure : SyntaxFailure)
  | problems (path : Text) (problems : List Yaml.Problem)
  | invalid (path : Text) (issues : List Text)
  | unsearched (failure : FileFailure)
  | notFound (origin : Text)
  deriving DecidableEq, Repr

namespace Config

def fileName : Text := text "rover.yml"

def default : Config where
  path := []
  strict := false
  scale := 0
  color := text "auto"
  historyFile := text "~/.rover_history"

def isColorMode (mode : Text) : Bool :=
  [text "auto", text "always", text "never"].contains mode

def validationMessage (path : Text) (issues : List Text) : Text :=
  if issues.isEmpty then text "config: invalid configuration"
  else
    text "config validation failed" ++ (if path.isEmpty then [] else text " for " ++ path)
      ++ text ":" ++ issues.flatMap fun issue => text "\n- " ++ issue

/-- The fields of a file. One that is null or missing keeps its default. -/
structure Fields where
  strict : Option Bool
  scale : Option Float
  color : Option Text
  historyFile : Option Text

def Fields.none : Fields := ⟨.none, .none, .none, .none⟩

inductive Undecoded where
  | malformed (message : Text)
  | problems (found : List Yaml.Problem)
  deriving DecidableEq, Repr

/-- What decodes the contents of a file. -/
class Decoder where
  decode : Text → Except Undecoded Fields

def ofFields (path : Text) (fields : Fields) : Config where
  path := path
  strict := fields.strict.getD default.strict
  scale := fields.scale.getD default.scale
  color :=
    let color := fields.color.getD []
    if color.isEmpty then default.color else color.trim.lower
  historyFile := (fields.historyFile.map Text.trim).getD default.historyFile

def issues (config : Config) : List Text :=
  (if isColorMode config.color then []
    else [text "color must be one of auto, always, never (got " ++ config.color.quoted
      ++ text ")"])
  ++ (if config.scale.isNaN || config.scale.isInf then
      [text "float_comparison_scale must be a finite number"] else [])

def decode [Decoder] (path contents : Text) : Except ConfigError Config :=
  match Decoder.decode contents with
  | .error (.malformed message) => .error (.malformed ⟨path, message⟩)
  | .error (.problems found) => .error (.problems path found)
  | .ok fields =>
      let config := ofFields path fields
      match config.issues with
      | [] => .ok config
      | issues => .error (.invalid path issues)

variable {m : Type → Type} [Monad m]

def load [Decoder] (files : Files m) (directory path : Text) : m (Except ConfigError Config) := do
  if path.isEmpty then return .error .emptyPath
  let whole := Path.absolute directory path
  match ← files.read whole with
  | .ok contents => return decode whole contents
  | .error .isDirectory => return .error (.unread whole (.ofRead whole .isDirectory))
  | .error error => return .error (.unopened whole (.ofRead whole error))

/-- The directories from the one with the given parts up to the root. -/
def upward (parts : List Text) : List Text :=
  (List.range (parts.length + 1)).reverse.map fun count => Path.ofParts true (parts.take count)

def search (files : Files m) (origin : Text) : List Text → m (Except ConfigError Text)
  | [] => return .error (.notFound origin)
  | directory :: others => do
      let candidate := Path.join directory fileName
      match ← files.stat candidate with
      | .ok .file => return .ok candidate
      | .ok .directory | .error .notFound => search files origin others
      | .error error => return .error (.unsearched ⟨text "stat", candidate, error⟩)

/-- The nearest file, from a directory, or the directory of a file, upwards. -/
def find (files : Files m) (directory start : Text) : m (Except ConfigError Text) := do
  let whole := Path.absolute directory start
  let origin ← do
    match ← files.stat whole with
    | .ok .file => pure (Path.parent whole)
    | _ => pure whole
  search files origin (upward (Path.parts origin))

/-- The settings of an explicit file, else of the nearest one, else the defaults. -/
def resolve [Decoder] (files : Files m) (directory explicit start : Text) :
    m (Except ConfigError Config) := do
  if !explicit.isEmpty then load files directory explicit
  else
    match ← find files directory start with
    | .ok path => load files directory path
    | .error (.notFound _) => return .ok default
    | .error error => return .error error

def homeless : Text := text "config: resolve user home: $HOME is not defined"

/-- Where the history is kept: a leading tilde is the home directory, and an empty setting keeps
none. -/
def historyPath (config : Config) (home : Option Text) : Except Text Text :=
  let path := config.historyFile
  if path = text "~" ∨ path.startsWith (text "~/") then
    match home with
    | some home => .ok (Path.join home (path.drop 1))
    | none => .error homeless
  else .ok path

end Config

def ConfigError.message : ConfigError → Text
  | emptyPath => text "config: empty path"
  | unopened path failure => text "config: open " ++ path ++ text ": " ++ failure.message
  | unread path failure =>
      text "config: parse " ++ path ++ text ": yaml: input error: " ++ failure.message
  | malformed failure => text "config: parse " ++ failure.path ++ text ": " ++ failure.message
  | problems path found =>
      text "config: parse " ++ path ++ text ": yaml: unmarshal errors:"
        ++ found.flatMap fun problem => text "\n  " ++ problem.message
  | invalid path issues => Config.validationMessage path issues
  | unsearched failure => failure.message
  | notFound origin =>
      text "no " ++ Config.fileName ++ text " found from " ++ origin ++ text " upwards: "
        ++ Config.fileName ++ text " not found"

end Rover
