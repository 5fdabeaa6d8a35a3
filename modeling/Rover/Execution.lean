import Rover.Evaluation

/-!
Statements are executed for their effects. Only loops can go on for ever, so every loop is given a
number of rounds after which the run is given up.
-/

namespace Rover

/-- Repeats a body while a condition holds, for at most the given number of rounds. -/
def repeatWhile (condition : Eval Value) (body : Eval Unit) : Nat → Eval Unit
  | 0 => throw .outOfFuel
  | fuel + 1 => do
      if (← condition).truthy then
        body
        repeatWhile condition body fuel

/-- More rounds than any loop gets to in practice. -/
def manyRounds : Nat := UInt64.size

def Stmt.isAbsent : Stmt → Bool
  | .absent => true
  | _ => false

mutual

def execute (options : Options) (fuel : Nat) : Stmt → Eval Unit
  | .absent => throw (.unsupported (text "interpreter: unsupported statement <nil>"))
  | .eval expr _ => do
      let _ ← Machine.complete (evaluate options expr)
  | .block body _ => Machine.inScope (executeAll options fuel body)
  | .define name _ initial constant _ => do
      let value ← Machine.complete (evaluate options initial)
      Machine.define name value constant
  | .cond condition body _ otherwise _ => do
      let value ← Machine.complete (evaluate options condition)
      if value.truthy then Machine.inScope (executeAll options fuel body)
      else if otherwise.isAbsent then pure ()
      else execute options fuel otherwise
  | .loop condition body _ _ =>
      repeatWhile (Machine.complete (evaluate options condition))
        (Machine.inScope (executeAll options fuel body)) fuel

def executeAll (options : Options) (fuel : Nat) : List Stmt → Eval Unit
  | [] => pure ()
  | first :: rest => do
      execute options fuel first
      executeAll options fuel rest

end

namespace Program

def run (options : Options) (fuel : Nat) (program : Program) : Eval Unit :=
  Machine.globally (executeAll options fuel program.body)

end Program

namespace Machine

/-- The machine after an action, and why the action ended early if it did. -/
def after {α : Type} (machine : Machine) (action : Eval α) : Option Stop × Machine :=
  match action machine with
  | .ok _ next => (none, next)
  | .error stop next => (some stop, next)

/-- The bindings of the outermost scope. -/
def globals (machine : Machine) : Scope Value :=
  machine.scopes.getLast?.getD []

end Machine
end Rover
