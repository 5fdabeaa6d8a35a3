import Rover.Number.Reading
import Rover.Printf

/-!
Expressions are evaluated to values, and the targets of assignments, `push` and `pop` are resolved
to locations. Reading a variable or an element copies it; a target is changed in place.
-/

namespace Rover

/-- The remainder in the range from 0 to 99. -/
def fold (number : Int64) : Int64 :=
  (number % 100 + 100) % 100

def BinaryOp.holds : BinaryOp → Ordering → Bool
  | .equal, order => order == .eq
  | .notEqual, order => order != .eq
  | .less, order => order == .lt
  | .lessEqual, order => order != .gt
  | .greater, order => order == .gt
  | .greaterEqual, order => order != .lt
  | _, _ => false

namespace Operation

def unary (options : Options) (op : UnaryOp) (operand : Value) (pos : Pos) : Eval Value :=
  match op, operand with
  | .negate, .int number => pure (.int (fold (-number)))
  | .negate, .float number => pure (.float (-number))
  | .not, .int number => pure (.ofBool (number == 0))
  | .not, .float number => pure (.ofBool (number == 0))
  | .other name, _ => throw (.unsupported (text "interpreter: unsupported unary operator " ++ name))
  | op, operand => do
      Machine.fail options (.unaryOperand op (← Machine.kindOf operand)) pos

def mismatch (options : Options) (op : BinaryOp) (left right : Value) (pos : Pos) :
    Eval Value := do
  let first ← Machine.kindOf left
  let second ← Machine.kindOf right
  Machine.fail options (.operands op first second) pos

/-- Sums, differences and products are taken of folded operands, so that they cannot overflow. -/
def arithmetic (options : Options) (op : BinaryOp) (left right : Value) (pos : Pos) : Eval Value :=
  match left, right with
  | .int left, .int right =>
      match op with
      | .add => pure (.int (fold (fold left + fold right)))
      | .subtract => pure (.int (fold (fold left - fold right)))
      | .multiply => pure (.int (fold (fold left * fold right)))
      | _ =>
          if right = 0 then Machine.fail options .divisionByZero pos
          else pure (.int (fold (left / right)))
  | .float left, .float right =>
      match op with
      | .add => pure (.float (left + right))
      | .subtract => pure (.float (left - right))
      | .multiply => pure (.float (left * right))
      | _ => pure (.float (left / right))
  | left, right => mismatch options op left right pos

def compareInts (left right : Int64) : Ordering :=
  if left < right then .lt else if right < left then .gt else .eq

def compareFloats (left right : Float) : Ordering :=
  if left < right then .lt else if right < left then .gt else .eq

/-- Whatever is not a number differs from everything and compares in no other way. -/
def comparison (options : Options) (op : BinaryOp) (left right : Value) (pos : Pos) : Eval Value :=
  match left, right with
  | .int left, .int right => pure (.ofBool (op.holds (compareInts left right)))
  | .float left, .float right =>
      let scaled := if options.scale != 0 then left * options.scale else left
      if scaled.isNaN || right.isNaN then pure (.ofBool (op == .notEqual))
      else pure (.ofBool (op.holds (compareFloats scaled right)))
  | left, right => mismatch options op left right pos

def binary (options : Options) (op : BinaryOp) (left right : Value) (pos : Pos) : Eval Value :=
  match op with
  | .and => pure (.ofBool (left.truthy && right.truthy))
  | .or => pure (.ofBool (left.truthy || right.truthy))
  | .add | .subtract | .multiply | .divide => arithmetic options op left right pos
  | .equal | .notEqual | .less | .lessEqual | .greater | .greaterEqual =>
      comparison options op left right pos
  | .assign | .other _ =>
      throw (.unsupported (text "interpreter: unsupported binary operator " ++ op.name))

end Operation

/-- The position that an index value means in an array. -/
def checkIndex (elements : List Value) (pos : Pos) : Value → Eval (Except RuntimeError Nat)
  | .int index =>
      if 0 ≤ index.toInt ∧ index.toInt < elements.length then return .ok index.toInt.toNat
      else return .error ⟨.indexBounds index elements.length, pos⟩
  | other => do return .error ⟨.indexKind (← Machine.kindOf other), pos⟩

/-- A place that was looked for: found, or an error that is still to be reported. -/
abbrev Located := Except RuntimeError Location

namespace Target

def named (name : Text) (pos : Pos) : Eval Located := do
  match (← get).scopes.find? name with
  | none => return .error ⟨.undefined name, pos⟩
  | some binding => return .ok ⟨.named name, binding.constant, name⟩

/-- A slot of the array at another place. The index is evaluated after that place is found and
before what it holds is looked at. -/
def slot (pos : Pos) (array : Eval Located) (index : Eval Value) : Eval Located := do
  match ← array with
  | .error error => return .error error
  | .ok base =>
      let position ← index
      match ← base.load with
      | .arr stamp elements =>
          match ← checkIndex elements pos position with
          | .error error => return .error error
          | .ok index => return .ok ⟨.slot stamp index, base.constant, base.root⟩
      | other => return .error ⟨.notArray (← Machine.kindOf other), pos⟩

/-- The place of an array that may be changed, and the array's stamp. -/
def array (builtin : Builtin) (pos : Pos) (target : Eval Located) :
    Eval (Except RuntimeError (Location × Stamp)) := do
  match ← target with
  | .error error =>
      match error.fault with
      | .target => return .error ⟨.targetArgument builtin, pos⟩
      | _ => return .error error
  | .ok location =>
      match ← location.load with
      | .arr stamp _ =>
          if location.constant then return .error ⟨.constant location.root, pos⟩
          else return .ok (location, stamp)
      | other => return .error ⟨.arrayArgument builtin (← Machine.kindOf other), pos⟩

/-- Appends a value, which is evaluated first, to the array at a place. The place is still the
target afterwards. -/
def push (pos : Pos) (target : Eval Located) (value : Eval Value) : Eval Located := do
  let value ← value
  match ← array .push pos target with
  | .error error => return .error error
  | .ok (location, stamp) =>
      let copied ← Machine.copy value
      modify (Machine.modifyArray stamp (· ++ [copied]))
      return .ok location

end Target

def readVariable (options : Options) (name : Text) (pos : Pos) : Eval Value := do
  match (← get).scopes.find? name with
  | some binding => Machine.copy binding.value
  | none => Machine.fail options (.undefined name) pos

/-- The value, which is evaluated first, becomes what is at the target, and is the result. -/
def assign (options : Options) (pos : Pos) (target : Eval Located) (value : Eval Value) :
    Eval Value := do
  let value ← value
  match ← target with
  | .error error => Machine.report options error
  | .ok location =>
      if location.constant then Machine.fail options (.constant location.root) pos
      else
        match ← location.store value with
        | .ok () => return value
        | .error error => Machine.fail options (.ofBinding error) pos

def readElement (options : Options) (pos : Pos) (array index : Eval Value) : Eval Value := do
  match ← array with
  | .arr _ elements =>
      match ← checkIndex elements pos (← index) with
      | .error error => Machine.report options error
      | .ok position => Machine.copy ((elements[position]?).getD .nothing)
  | other => Machine.fail options (.notArray (← Machine.kindOf other)) pos

def lengthOf (options : Options) (pos : Pos) (array : Eval Value) : Eval Value := do
  match ← array with
  | .arr _ elements => return .int (Int64.ofNat elements.length)
  | other => Machine.fail options (.arrayArgument .length (← Machine.kindOf other)) pos

def pushTo (options : Options) (pos : Pos) (target : Eval Located) (value : Eval Value) :
    Eval Value := do
  match ← Target.push pos target value with
  | .error error => Machine.report options error
  | .ok location => Machine.copy (← location.load)

/-- The last element, which the array loses; nothing if the array is empty. -/
def popFrom (options : Options) (pos : Pos) (target : Eval Located) : Eval Value := do
  match ← Target.array .pop pos target with
  | .error error => Machine.report options error
  | .ok (_, stamp) =>
      match (((← get).array? stamp).getD []).getLast? with
      | none => return .nothing
      | some last =>
          Machine.orphan last
          modify (Machine.modifyArray stamp List.dropLast)
          return last

def collect : List (Eval Value) → Eval (List Value)
  | [] => return []
  | first :: rest => do
      let value ← first
      let values ← collect rest
      return value :: values

mutual

/-- The value of an expression. Operands and elements are evaluated from left to right, all of
them. -/
def evaluate (options : Options) : Expr → Eval Value
  | .absent => throw (.unsupported (text "interpreter: unsupported expression <nil>"))
  | .int digits pos =>
      match Reading.int64? digits with
      | some number => pure (.int number)
      | none => Machine.fail options (.integerLiteral digits) pos
  | .float digits pos =>
      match Reading.float? digits with
      | some number => pure (.float number)
      | none => Machine.fail options (.floatLiteral digits) pos
  | .str value _ => pure (.str value)
  | .name name pos => readVariable options name pos
  | .array elements _ => do Machine.newArray (← collect (evaluateEach options elements))
  | .unary op operand pos => do Operation.unary options op (← evaluate options operand) pos
  | .binary .assign left right pos =>
      assign options pos (locate options left) (evaluate options right)
  | .binary op left right pos => do
      let first ← evaluate options left
      let second ← evaluate options right
      Operation.binary options op first second pos
  | .index array index pos =>
      readElement options pos (evaluate options array) (evaluate options index)
  | .call (.name name _) arguments pos =>
      match Builtin.ofName? name with
      | none => Machine.fail options (.unknownFunction name) pos
      | some .printf => Printf.call options pos (evaluateEach options arguments)
      | some .length =>
          match arguments with
          | [array] => lengthOf options pos (evaluate options array)
          | _ => Machine.fail options (.arity .length 1 arguments.length) pos
      | some .push =>
          match arguments with
          | [target, value] =>
              pushTo options pos (locate options target) (evaluate options value)
          | _ => Machine.fail options (.arity .push 2 arguments.length) pos
      | some .pop =>
          match arguments with
          | [target] => popFrom options pos (locate options target)
          | _ => Machine.fail options (.arity .pop 1 arguments.length) pos
  | .call _ _ pos => Machine.fail options .callee pos

/-- The evaluations of several expressions, none of them started. -/
def evaluateEach (options : Options) : List Expr → List (Eval Value)
  | [] => []
  | first :: rest => evaluate options first :: evaluateEach options rest

/-- The place that an expression names: a variable, an element of the array at a place, or the
target of a push. -/
def locate (options : Options) : Expr → Eval Located
  | .name name pos => Target.named name pos
  | .index array index pos => Target.slot pos (locate options array) (evaluate options index)
  | .call (.name name _) arguments pos =>
      if name = Builtin.push.name then
        match arguments with
        | [target, value] => Target.push pos (locate options target) (evaluate options value)
        | _ => pure (.error ⟨.arity .push 2 arguments.length, pos⟩)
      else pure (.error ⟨.target, pos⟩)
  | other => pure (.error ⟨.target, other.pos⟩)

end

end Rover
