import Rover.Fault

/-!
The state of a running program, and the steps that change it: reporting errors, writing, opening
scopes, and reading and changing variables and array elements in place.
-/

namespace Rover

/-- A writer that holds text back is flushed at the end of every `printf`. -/
structure Writer where
  label : Text
  flushes : Bool
  deriving DecidableEq, Repr

/-- How programs are run. A strict run stops at its first runtime error, any other reports it and
goes on. A scale other than zero multiplies the left side of every comparison of floats. -/
structure Options where
  strict : Bool
  scale : Float
  output : Option Writer
  diagnostics : Option Writer

/-- All options at once, except that a missing writer leaves the old one in place. -/
def Options.replace (old new : Options) : Options :=
  { new with
    output := new.output <|> old.output
    diagnostics := new.diagnostics <|> old.diagnostics }

inductive Event where
  | wrote (label : Text) (bytes : Text)
  | flushed
  deriving DecidableEq, Repr

/-- What no run can survive. -/
inductive Crash where
  /-- An element was about to be used that its array no longer has. -/
  | lostElement (index length : Nat)
  /-- The kind of an absent value was asked for. -/
  | absentValue
  deriving DecidableEq, Repr

def Crash.message : Crash → Text
  | lostElement index length =>
      text "runtime error: index out of range [" ++ Text.ofNat index ++ text "] with length "
        ++ Text.ofNat length
  | absentValue => text "runtime error: invalid memory address or nil pointer dereference"

/-- Why a run ends early. -/
inductive Stop where
  /-- A strict run met a runtime error. -/
  | error (error : RuntimeError)
  /-- A tree that no source spells has a part that cannot be run. -/
  | unsupported (message : Text)
  | crash (cause : Crash)
  /-- A loop went on for longer than it was allowed to. -/
  | outOfFuel
  deriving DecidableEq, Repr

def Stop.message : Stop → Text
  | error failure => failure.shown
  | unsupported message => message
  | crash cause => cause.message
  | outOfFuel => text "loop limit reached"

/-- The scopes are listed from the innermost outward. The orphans are the values that the current
expression has cut loose from their variable or array: a place that was found before may still lie
inside one. New arrays are stamped from `next` on. -/
structure Machine where
  scopes : Chain Value
  orphans : List Value
  next : Stamp
  errors : Array RuntimeError
  events : Array Event

def Machine.new : Machine := ⟨[[]], [], 0, #[], #[]⟩

abbrev Eval (α : Type) := EStateM Stop Machine α

namespace Machine

def write (writer : Option Writer) (bytes : Text) : Eval Unit :=
  match writer with
  | some writer =>
      if bytes.isEmpty then pure ()
      else modify fun machine =>
        { machine with events := machine.events.push (.wrote writer.label bytes) }
  | none => pure ()

/-- Flushes the writer after an action, however the action ends. -/
def flushing {α : Type} (writer : Option Writer) (action : Eval α) : Eval α := fun machine =>
  let flushed (machine : Machine) : Machine :=
    match writer with
    | some writer =>
        if writer.flushes then { machine with events := machine.events.push .flushed } else machine
    | none => machine
  match action machine with
  | .ok value after => .ok value (flushed after)
  | .error stop after => .error stop (flushed after)

/-- Records an error. A strict run ends with it; any other writes it down and yields nothing. -/
def report (options : Options) (error : RuntimeError) : Eval Value := do
  modify fun machine => { machine with errors := machine.errors.push error }
  if options.strict then throw (.error error)
  write options.diagnostics (text "runtime error: " ++ error.shown ++ text "\n")
  return .nothing

def fail (options : Options) (fault : Fault) (pos : Pos) : Eval Value :=
  report options ⟨fault, pos⟩

/-- Runs an action in a fresh innermost scope, which is gone afterwards. -/
def inScope {α : Type} (action : Eval α) : Eval α := fun machine =>
  let closed (machine : Machine) : Machine := { machine with scopes := machine.scopes.tail }
  match action { machine with scopes := [] :: machine.scopes } with
  | .ok value after => .ok value (closed after)
  | .error stop after => .error stop (closed after)

/-- Runs an action in the outermost scope alone. -/
def globally {α : Type} (action : Eval α) : Eval α := fun machine =>
  let inner := machine.scopes.dropLast
  let restored (machine : Machine) : Machine := { machine with scopes := inner ++ machine.scopes }
  match action { machine with scopes := machine.scopes.getLast?.toList } with
  | .ok value after => .ok value (restored after)
  | .error stop after => .error stop (restored after)

/-- Runs an action with which an expression is complete, so that no place in an orphan is used any
more. -/
def complete {α : Type} (action : Eval α) : Eval α := fun machine =>
  match action { machine with orphans := [] } with
  | .ok value after => .ok value { after with orphans := [] }
  | .error stop after => .error stop { after with orphans := [] }

def define (name : Text) (value : Value) (constant : Bool) : Eval Unit :=
  modify fun machine =>
    { machine with scopes := machine.scopes.define name ⟨value, constant⟩ }

def kindOf (value : Value) : Eval ValueKind :=
  match value.kind? with
  | some kind => pure kind
  | none => throw (.crash .absentValue)

/-- A copy that shares no array with anything else. -/
def copy (value : Value) : Eval Value :=
  modifyGet fun machine =>
    let (copied, next) := value.copy machine.next
    (copied, { machine with next })

def newArray (elements : List Value) : Eval Value :=
  modifyGet fun machine =>
    (.arr machine.next elements, { machine with next := machine.next + 1 })

def array? (machine : Machine) (stamp : Stamp) : Option (List Value) :=
  Value.findIn? stamp
    (machine.scopes.flatMap (fun scope => scope.map (·.2.value)) ++ machine.orphans)

/-- Changes the elements of an array wherever it is held. -/
def modifyArray (stamp : Stamp) (change : List Value → List Value) (machine : Machine) : Machine :=
  { machine with
    scopes := machine.scopes.map fun scope => scope.map fun entry =>
      (entry.1, { entry.2 with value := entry.2.value.modify stamp change })
    orphans := Value.modifyAll stamp change machine.orphans }

def orphan (value : Value) : Eval Unit :=
  modify fun machine => { machine with orphans := value :: machine.orphans }

end Machine

inductive Place where
  | named (name : Text)
  | slot (stamp : Stamp) (index : Nat)
  deriving DecidableEq, Repr

/-- A place that can be assigned to: a variable, or a slot of an array that a variable holds at some
depth. The root is the variable, which decides whether the place is constant. -/
structure Location where
  place : Place
  constant : Bool
  root : Text
  deriving DecidableEq, Repr

namespace Location

/-- The value at a place. An array may have lost the slot since the place was found. -/
def load (location : Location) : Eval Value := do
  let machine ← get
  match location.place with
  | .named name => return ((machine.scopes.find? name).map (·.value)).getD .nothing
  | .slot stamp index =>
      let elements := (machine.array? stamp).getD []
      match elements[index]? with
      | some value => return value
      | none => throw (.crash (.lostElement index elements.length))

/-- Puts a copy of a value at a place. Whatever was there is cut loose. -/
def store (location : Location) (value : Value) : Eval (Except BindingError Unit) := do
  let copied ← Machine.copy value
  match location.place with
  | .named name =>
      match (← get).scopes.assign name copied with
      | .error error => return .error error
      | .ok scopes =>
          Machine.orphan (← location.load)
          modify fun machine => { machine with scopes }
          return .ok ()
  | .slot stamp index =>
      Machine.orphan (← location.load)
      modify (Machine.modifyArray stamp (·.set index copied))
      return .ok ()

end Location
end Rover
