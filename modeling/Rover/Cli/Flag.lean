import Rover.Number.Reading
import Rover.Text.Quoted

/-!
Flags of a command line. A flag is written with one dash or two, and its value stands after an
equals sign or, unless the flag is a switch, in the next argument. Flags end at the first argument
that is none, or after a double dash.
-/

namespace Rover
namespace Cli

inductive Form where
  | long
  | short
  deriving DecidableEq, Repr

inductive Flag where
  | config
  | strict
  | scale
  | noColor
  | help (form : Form)
  | version (form : Form)
  deriving DecidableEq, Repr

inductive Setting where
  | config (path : Text)
  | strict (on : Bool)
  | scale (factor : Float)
  | noColor (on : Bool)
  | help (form : Form) (on : Bool)
  | version (form : Form) (on : Bool)

namespace Flag

def name : Flag → Text
  | config => text "config"
  | strict => text "strict"
  | scale => text "float-scale"
  | noColor => text "no-color"
  | help .long => text "help"
  | help .short => text "h"
  | version .long => text "version"
  | version .short => text "v"

def isSwitch : Flag → Bool
  | config | scale => false
  | strict | noColor | help _ | version _ => true

def named? (known : List Flag) (name : Text) : Option Flag :=
  known.find? (·.name == name)

end Flag

inductive FlagError where
  | malformed (argument : Text)
  | unknown (name : Text)
  | valueMissing (flag : Flag)
  | notSwitch (flag : Flag) (value : Text)
  | notNumber (flag : Flag) (value : Text) (reason : Reading.Unreadable)
  | bothForms (long short : Flag)
  deriving DecidableEq, Repr

def reasonMessage : Reading.Unreadable → Text
  | .malformed => text "parse error"
  | .outOfRange => text "value out of range"

def FlagError.message : FlagError → Text
  | malformed argument => text "bad flag syntax: " ++ argument
  | unknown name => text "flag provided but not defined: -" ++ name
  | valueMissing flag => text "flag needs an argument: -" ++ flag.name
  | notSwitch flag value =>
      text "invalid boolean value " ++ value.quoted ++ text " for -" ++ flag.name
        ++ text ": parse error"
  | notNumber flag value reason =>
      text "invalid value " ++ value.quoted ++ text " for flag -" ++ flag.name ++ text ": "
        ++ reasonMessage reason
  | bothForms long short =>
      text "Cannot use two forms of the same flag: " ++ short.name ++ text " " ++ long.name

def switch? (word : Text) : Option Bool :=
  if ["1", "t", "T", "TRUE", "true", "True"].map text |>.contains word then some true
  else if ["0", "f", "F", "FALSE", "false", "False"].map text |>.contains word then some false
  else none

def Flag.setting (flag : Flag) (value : Text) : Except FlagError Setting :=
  let switched (make : Bool → Setting) : Except FlagError Setting :=
    match switch? value with
    | some on => .ok (make on)
    | none => .error (.notSwitch flag value)
  match flag with
  | config => .ok (.config value)
  | scale =>
      match Reading.float value with
      | .ok factor => .ok (.scale factor)
      | .error reason => .error (.notNumber flag value reason)
  | strict => switched .strict
  | noColor => switched .noColor
  | help form => switched (.help form)
  | version form => switched (.version form)

def dash : UInt8 := 45

def equalsSign : UInt8 := 61

inductive Argument where
  | plain
  /-- A double dash. -/
  | terminator
  | malformed
  | flag (name : Text) (value : Option Text)
  deriving DecidableEq, Repr

/-- A flag without its dashes: the value is what stands after the first equals sign. -/
def Argument.ofFlag (body : Text) : Argument :=
  match body with
  | [] => .terminator
  | first :: _ =>
      if first = dash ∨ first = equalsSign then .malformed
      else
        .flag (body.takeWhile (· != equalsSign))
          ((body.dropWhile (· != equalsSign)).tail?)

def Argument.ofText : Text → Argument
  | first :: second :: rest =>
      if first ≠ dash then .plain
      else if second = dash then .ofFlag rest
      else .ofFlag (second :: rest)
  | _ => .plain

/-- The settings read from the flags at the start of a command line, the arguments that are left,
and what ended the flags if it was an error. -/
structure FlagReading where
  settings : List Setting
  arguments : List Text
  error : Option FlagError

namespace FlagReading

def stopped (error : FlagError) : FlagReading := ⟨[], [], some error⟩

def add (setting : Setting) (later : FlagReading) : FlagReading :=
  { later with settings := setting :: later.settings }

end FlagReading

class FlagReader where
  read (known : List Flag) (arguments : List Text) : FlagReading

def readFlags (known : List Flag) : List Text → FlagReading
  | [] => ⟨[], [], none⟩
  | argument :: rest =>
      match Argument.ofText argument with
      | .plain => ⟨[], argument :: rest, none⟩
      | .terminator => ⟨[], rest, none⟩
      | .malformed => .stopped (.malformed argument)
      | .flag name value =>
          match Flag.named? known name with
          | none => .stopped (.unknown name)
          | some flag =>
              match if flag.isSwitch then some (value.getD (text "true")) else value with
              | some value =>
                  match flag.setting value with
                  | .ok setting => (readFlags known rest).add setting
                  | .error error => .stopped error
              | none =>
                  match rest with
                  | [] => .stopped (.valueMissing flag)
                  | value :: others =>
                      match flag.setting value with
                      | .ok setting => (readFlags known others).add setting
                      | .error error => .stopped error

instance : FlagReader := ⟨readFlags⟩

/-- Of several settings of one flag the last counts. -/
def last {α : Type} (settings : List Setting) (pick : Setting → Option α) : Option α :=
  (settings.filterMap pick).getLast?

/-- Both forms of one flag must not be given together. -/
def bothForms? (settings : List Setting) : Option FlagError :=
  let given (pick : Setting → Bool) : Bool := settings.any pick
  if given (fun | .help .long _ => true | _ => false)
      && given (fun | .help .short _ => true | _ => false) then
    some (.bothForms (.help .long) (.help .short))
  else if given (fun | .version .long _ => true | _ => false)
      && given (fun | .version .short _ => true | _ => false) then
    some (.bothForms (.version .long) (.version .short))
  else none

def asksHelp (settings : List Setting) : Bool :=
  (last settings fun | .help _ on => some on | _ => none).getD false

def asksVersion (settings : List Setting) : Bool :=
  (last settings fun | .version _ on => some on | _ => none).getD false

structure Flags where
  config : Option Text
  strict : Option Bool
  scale : Option Float
  noColor : Option Bool

namespace Flags

def ofSettings (settings : List Setting) : Flags where
  config := last settings fun | .config path => some path | _ => .none
  strict := last settings fun | .strict on => some on | _ => .none
  scale := last settings fun | .scale factor => some factor | _ => .none
  noColor := last settings fun | .noColor on => some on | _ => .none

end Flags
end Cli
end Rover
