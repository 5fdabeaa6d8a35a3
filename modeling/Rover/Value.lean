import Rover.Number.Significant
import Rover.Text.Quoted

/-!
The values that programs compute with. An array carries a stamp, which tells it apart from every
other array object with the same elements: two occurrences of one stamp are one and the same array,
and a copy gets stamps of its own.
-/

namespace Rover

inductive ValueKind where
  | nothing
  | integer
  | float
  | string
  | array
  deriving DecidableEq, Repr

namespace ValueKind

def all : List ValueKind := [nothing, integer, float, string, array]

def code : ValueKind → Nat
  | nothing => 0
  | integer => 1
  | float => 2
  | string => 3
  | array => 4

def name : ValueKind → Text
  | nothing => text "no value"
  | integer => text "integer"
  | float => text "float"
  | string => text "string"
  | array => text "array"

def nameOfCode (code : Int) : Text :=
  match all.find? fun kind => (kind.code : Int) == code with
  | some kind => kind.name
  | none => text "unknown"

end ValueKind

abbrev Stamp := Nat

/-- No program makes an absent value, but whoever supplies variables may leave one without a
value. -/
inductive Value where
  | absent
  | nothing
  | int (number : Int64)
  | float (number : Float)
  | str (value : Text)
  | arr (stamp : Stamp) (elements : List Value)
  deriving Inhabited

namespace Value

def kind? : Value → Option ValueKind
  | absent => none
  | nothing => some .nothing
  | int _ => some .integer
  | float _ => some .float
  | str _ => some .string
  | arr _ _ => some .array

/-- Numbers other than zero and non-empty strings count as true; all else counts as false. -/
def truthy : Value → Bool
  | int number => number != 0
  | float number => number != 0
  | str value => !value.isEmpty
  | absent | nothing | arr _ _ => false

def ofBool (truth : Bool) : Value :=
  int (if truth then 1 else 0)

mutual

/-- A copy has the same elements at every depth and fresh stamps, counted up from `next`. -/
def copy (next : Stamp) : Value → Value × Stamp
  | arr _ elements =>
      let (copies, after) := copyAll (next + 1) elements
      (arr next copies, after)
  | absent => (absent, next)
  | nothing => (nothing, next)
  | int number => (int number, next)
  | float number => (float number, next)
  | str value => (str value, next)

def copyAll (next : Stamp) : List Value → List Value × Stamp
  | [] => ([], next)
  | first :: rest =>
      let (firstCopy, middle) := copy next first
      let (restCopies, after) := copyAll middle rest
      (firstCopy :: restCopies, after)

end

mutual

/-- The deep value is the value with its stamps forgotten. -/
def deep : Value → Value
  | arr _ elements => arr 0 (deepAll elements)
  | absent => absent
  | nothing => nothing
  | int number => int number
  | float number => float number
  | str value => str value

def deepAll : List Value → List Value
  | [] => []
  | first :: rest => deep first :: deepAll rest

end

mutual

def find? (stamp : Stamp) : Value → Option (List Value)
  | arr own elements => if own = stamp then some elements else findIn? stamp elements
  | absent | nothing | int _ | float _ | str _ => none

def findIn? (stamp : Stamp) : List Value → Option (List Value)
  | [] => none
  | first :: rest =>
      match find? stamp first with
      | some elements => some elements
      | none => findIn? stamp rest

end

mutual

def modify (stamp : Stamp) (change : List Value → List Value) : Value → Value
  | arr own elements =>
      arr own (if own = stamp then change elements else modifyAll stamp change elements)
  | absent => absent
  | nothing => nothing
  | int number => int number
  | float number => float number
  | str value => str value

def modifyAll (stamp : Stamp) (change : List Value → List Value) : List Value → List Value
  | [] => []
  | first :: rest => modify stamp change first :: modifyAll stamp change rest

end

/-- Only numbers and strings can be printed. -/
def printed : Value → Text
  | int number => Text.ofInt number.toInt
  | float number => Significant.render number
  | str value => value
  | absent | nothing | arr _ _ => text "INVALID"

mutual

/-- Strings are quoted and arrays are shown element by element. -/
def inspect : Value → Text
  | int number => Text.ofInt number.toInt
  | float number => Significant.render number
  | str value => value.quoted
  | arr _ elements => text "[" ++ Text.join (text ", ") (inspectAll elements) ++ text "]"
  | nothing => text "<no value>"
  | absent => text "<unknown>"

def inspectAll : List Value → List Text
  | [] => []
  | first :: rest => inspect first :: inspectAll rest

end

end Value
end Rover
