import Rover.Machine

/-!
Formatted output. A format is cut at its placeholders into a template; arguments are evaluated only
when their placeholder is reached, and a malformed format prints up to its fault.
-/

namespace Rover

/-- A template is text up to the end of the format, up to a fault in it, or up to a placeholder with
more behind it. -/
inductive Template where
  | finish (before : Text)
  | malformed (before : Text) (fault : Fault)
  | hole (before : Text) (rest : Template)
  deriving DecidableEq, Repr

namespace Template

def prepend (bytes : Text) : Template → Template
  | finish before => finish (bytes ++ before)
  | malformed before fault => malformed (bytes ++ before) fault
  | hole before rest => hole (bytes ++ before) rest

def escape? : Char → Option Char
  | '\\' => some '\\'
  | 'n' => some '\n'
  | 't' => some '\t'
  | 'r' => some '\r'
  | 'v' => some '\x0b'
  | 'b' => some '\x08'
  | 'a' => some '\x07'
  | 'f' => some '\x0c'
  | '0' => some '\x00'
  | _ => none

def ofChars : List Char → Template
  | [] => finish []
  | ['\\'] => malformed [] .trailingBackslash
  | '\\' :: letter :: rest =>
      match escape? letter with
      | some char => (ofChars rest).prepend (Text.ofChars [char])
      | none => malformed [] (.unknownEscape letter)
  | '{' :: '}' :: rest => hole [] (ofChars rest)
  | char :: rest => (ofChars rest).prepend (Text.ofChars [char])

end Template

namespace Printf

/-- Prints a template, putting the text of the next argument into each placeholder. Text is held
back in `pending` until an argument is evaluated, a fault is met or the format ends. -/
def fill (options : Options) (pos : Pos) (pending : Text) :
    Template → List (Eval Value) → Eval Value
  | .finish before, _ => do
      Machine.write options.output (pending ++ before)
      return .nothing
  | .malformed before fault, _ => do
      Machine.write options.output (pending ++ before)
      Machine.fail options fault pos
  | .hole before _, [] => do
      Machine.write options.output (pending ++ before)
      Machine.fail options .tooFewArguments pos
  | .hole before rest, argument :: arguments => do
      Machine.write options.output (pending ++ before)
      let value ← argument
      fill options pos value.printed rest arguments

def call (options : Options) (pos : Pos) : List (Eval Value) → Eval Value
  | [] => Machine.fail options .noFormat pos
  | format :: arguments => do
      match ← format with
      | .str format =>
          Machine.flushing options.output
            (fill options pos [] (Template.ofChars format.chars) arguments)
      | other => Machine.fail options (.formatArgument (← Machine.kindOf other)) pos

end Printf
end Rover
