import Rover.Program
import Rover.Scope
import Rover.Value

/-!
What can go wrong while a program runs. A fault is a cause with its data; a runtime error is a
fault together with the place of the node that met it.
-/

namespace Rover

inductive Builtin where
  | length
  | pop
  | printf
  | push
  deriving DecidableEq, Repr

namespace Builtin

def all : List Builtin := [length, pop, printf, push]

def name : Builtin → Text
  | length => text "length"
  | pop => text "pop"
  | printf => text "printf"
  | push => text "push"

def ofName? (name : Text) : Option Builtin :=
  all.find? (·.name == name)

end Builtin

inductive Fault where
  | integerLiteral (text : Text)
  | floatLiteral (text : Text)
  | undefined (name : Text)
  | constant (name : Text)
  | unaryOperand (op : UnaryOp) (kind : ValueKind)
  | operands (op : BinaryOp) (left right : ValueKind)
  | divisionByZero
  | target
  | notArray (kind : ValueKind)
  | indexKind (kind : ValueKind)
  | indexBounds (index : Int64) (length : Nat)
  | callee
  | unknownFunction (name : Text)
  | arity (builtin : Builtin) (wanted given : Nat)
  | noFormat
  | arrayArgument (builtin : Builtin) (kind : ValueKind)
  | targetArgument (builtin : Builtin)
  | formatArgument (kind : ValueKind)
  | trailingBackslash
  | unknownEscape (char : Char)
  | tooFewArguments
  deriving DecidableEq, Repr

namespace Fault

def kind : Fault → Text
  | integerLiteral _ | floatLiteral _ => text "invalid literal"
  | undefined _ => text "undefined variable"
  | constant _ => text "cannot assign to constant"
  | unaryOperand _ _ | operands _ _ _ => text "type mismatch"
  | divisionByZero => text "division by zero"
  | target => text "invalid assignment target"
  | notArray _ => text "not an array"
  | indexKind _ => text "index must be an integer"
  | indexBounds _ _ => text "index out of bounds"
  | callee => text "callee must be a function name"
  | unknownFunction _ => text "unknown function"
  | arity _ _ _ | noFormat => text "wrong number of arguments"
  | arrayArgument _ _ | targetArgument _ | formatArgument _ => text "invalid built-in argument"
  | trailingBackslash | unknownEscape _ | tooFewArguments => text "invalid format string"

def message : Fault → Text
  | integerLiteral literal => text "invalid integer literal " ++ literal
  | floatLiteral literal => text "invalid float literal " ++ literal
  | undefined name => text "undefined variable '" ++ name ++ text "'"
  | constant name => text "cannot assign to constant '" ++ name ++ text "'"
  | unaryOperand op kind =>
      text "type mismatch: unary '" ++ op.name ++ text "' requires an integer or float, got "
        ++ kind.name
  | operands op left right =>
      text "type mismatch: operator " ++ op.name
        ++ text " requires two integers or two floats, got " ++ left.name ++ text " and "
        ++ right.name
  | divisionByZero => text "division by zero"
  | target => text "invalid assignment target"
  | notArray kind => text "not an array: cannot index " ++ kind.name
  | indexKind kind => text "index must be an integer, got " ++ kind.name
  | indexBounds index length =>
      text "index out of bounds: " ++ Text.ofInt index.toInt ++ text " not in array of length "
        ++ Text.ofNat length
  | callee => text "callee must be a function name"
  | unknownFunction name => text "unknown function '" ++ name ++ text "'"
  | arity builtin wanted given =>
      builtin.name ++ text " expects " ++ Text.ofNat wanted ++ text " argument(s), got "
        ++ Text.ofNat given
  | noFormat => text "printf expects at least 1 argument(s), got 0"
  | arrayArgument builtin kind => builtin.name ++ text " expects an array, got " ++ kind.name
  | targetArgument builtin =>
      builtin.name ++ text " expects an array variable or element as its first argument"
  | formatArgument kind =>
      text "printf expects a format string as its first argument, got " ++ kind.name
  | trailingBackslash => text "printf: trailing backslash in format string"
  | unknownEscape char => text "printf: unknown escape sequence \\" ++ Text.ofChars [char]
  | tooFewArguments => text "printf: too few arguments for format string"

def ofBinding : BindingError → Fault
  | .undefined name => undefined name
  | .constant name => constant name

@[simp] theorem message_ofBinding (error : BindingError) :
    (ofBinding error).message = error.message := by
  cases error <;> rfl

end Fault

structure RuntimeError where
  fault : Fault
  pos : Pos
  deriving DecidableEq, Repr

def RuntimeError.shown (error : RuntimeError) : Text :=
  error.pos.shown ++ text ": " ++ error.fault.message

end Rover
