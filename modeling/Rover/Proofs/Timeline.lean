import Rover.Proofs.Action

/-!
The moments that a run passes, in order: the end of the evaluation of every expression in it and of
the search for every target, every definition, and every opening and closing of a scope. The machine
at each moment is the one that the evaluation itself has reached.
-/

namespace Rover

inductive Act where
  /-- No program is running. -/
  | ready
  | evaluated (value : Value)
  | located (found : Located)
  | stopped (stop : Stop)
  | opened
  | closed
  | defined (name : Text)

structure Moment where
  act : Act
  machine : Machine

def onward {α : Type} (action : Eval α) (next : α → Machine → List Moment) (machine : Machine) :
    List Moment :=
  match action machine with
  | .ok value after => next value after
  | .error _ _ => []

def ending {α : Type} (act : α → Act) (action : Eval α) (machine : Machine) : List Moment :=
  match action machine with
  | .ok value after => [⟨act value, after⟩]
  | .error stop after => [⟨.stopped stop, after⟩]

section Results

variable {α : Type} {action : Eval α} {machine after : Machine}

theorem onward_of_ok {next : α → Machine → List Moment} {value : α}
    (result : action machine = .ok value after) :
    onward action next machine = next value after := by
  rw [onward, result]

theorem onward_of_error {next : α → Machine → List Moment} {stop : Stop}
    (result : action machine = .error stop after) : onward action next machine = [] := by
  rw [onward, result]

@[simp] theorem onward_nil : onward action (fun _ _ => []) machine = [] := by
  unfold onward
  split <;> rfl

theorem ending_of_ok {act : α → Act} {value : α} (result : action machine = .ok value after) :
    ending act action machine = [⟨act value, after⟩] := by
  rw [ending, result]

theorem ending_of_error {act : α → Act} {stop : Stop}
    (result : action machine = .error stop after) :
    ending act action machine = [⟨.stopped stop, after⟩] := by
  rw [ending, result]

end Results

mutual

/-- The moments of an evaluation: those of the parts that it gets to, then its own end. -/
def Expr.moments (options : Options) : Expr → Machine → List Moment
  | .array elements pos, machine =>
      momentsEach options elements machine ++
        ending .evaluated (evaluate options (.array elements pos)) machine
  | .unary op operand pos, machine =>
      operand.moments options machine ++
        ending .evaluated (evaluate options (.unary op operand pos)) machine
  | .binary .assign target value pos, machine =>
      value.moments options machine ++
        onward (evaluate options value) (fun _ => target.searching options) machine ++
        ending .evaluated (evaluate options (.binary .assign target value pos)) machine
  | .binary op left right pos, machine =>
      left.moments options machine ++
        onward (evaluate options left) (fun _ => right.moments options) machine ++
        ending .evaluated (evaluate options (.binary op left right pos)) machine
  | .index array position pos, machine =>
      array.moments options machine ++
        onward (evaluate options array) (fun value after =>
          match value with
          | .arr _ _ => position.moments options after
          | _ => []) machine ++
        ending .evaluated (evaluate options (.index array position pos)) machine
  | .call (.name callee calleePos) arguments pos, machine =>
      momentsGiven options (Builtin.ofName? callee) arguments machine ++
        ending .evaluated (evaluate options (.call (.name callee calleePos) arguments pos)) machine
  | other, machine => ending .evaluated (evaluate options other) machine

def momentsEach (options : Options) : List Expr → Machine → List Moment
  | [], _ => []
  | first :: rest, machine =>
      first.moments options machine ++
        onward (evaluate options first) (fun _ => momentsEach options rest) machine

def momentsGiven (options : Options) (builtin : Option Builtin) :
    List Expr → Machine → List Moment
  | [], _ => []
  | first :: others, machine =>
      match builtin with
      | some .printf =>
          first.moments options machine ++
            onward (evaluate options first) (fun value after =>
              match value with
              | .str format =>
                  momentsFilling options [] (Template.ofChars format.chars) others after
              | _ => []) machine
      | some .length =>
          match others with
          | [] => first.moments options machine
          | _ => []
      | some .push =>
          match others with
          | [value] =>
              value.moments options machine ++
                onward (evaluate options value) (fun _ => first.searching options) machine
          | _ => []
      | some .pop =>
          match others with
          | [] => first.searching options machine
          | _ => []
      | none => []

def momentsFilling (options : Options) (pending : Text) (template : Template) :
    List Expr → Machine → List Moment
  | [], _ => []
  | first :: others, machine =>
      match template with
      | .hole before rest =>
          onward (Machine.write options.output (pending ++ before)) (fun _ written =>
            first.moments options written ++
              onward (evaluate options first)
                (fun value => momentsFilling options value.printed rest others) written) machine
      | _ => []

def Expr.searching (options : Options) : Expr → Machine → List Moment
  | .index array position pos, machine =>
      array.searching options machine ++
        onward (locate options array) (fun found after =>
          match found with
          | .ok _ => position.moments options after
          | .error _ => []) machine ++
        ending .located (locate options (.index array position pos)) machine
  | .call (.name callee calleePos) arguments pos, machine =>
      (if callee = Builtin.push.name then momentsGiven options (some .push) arguments machine
        else []) ++
        ending .located (locate options (.call (.name callee calleePos) arguments pos)) machine
  | other, machine => ending .located (locate options other) machine

end

theorem moments_binary (options : Options) {op : BinaryOp} (differs : op ≠ .assign)
    (left right : Expr) (pos : Pos) (machine : Machine) :
    (Expr.binary op left right pos).moments options machine =
      left.moments options machine ++
        onward (evaluate options left) (fun _ => right.moments options) machine ++
        ending .evaluated (evaluate options (.binary op left right pos)) machine := by
  rw [Expr.moments]
  exact differs

theorem moments_call_other (options : Options) {callee : Expr}
    (unnamed : ∀ name namePos, callee ≠ .name name namePos) (arguments : List Expr) (pos : Pos)
    (machine : Machine) :
    (Expr.call callee arguments pos).moments options machine =
      ending .evaluated (evaluate options (.call callee arguments pos)) machine := by
  cases callee with
  | name name namePos => exact absurd rfl (unnamed name namePos)
  | _ => rfl

theorem searching_index (options : Options) (base position : Expr) (pos : Pos) (machine : Machine) :
    (Expr.index base position pos).searching options machine =
      base.searching options machine ++
        onward (locate options base) (fun found after =>
          match found with
          | .ok _ => position.moments options after
          | .error _ => []) machine ++
        ending .located (locate options (.index base position pos)) machine :=
  rfl

theorem searching_call_other (options : Options) {callee : Expr}
    (unnamed : ∀ name namePos, callee ≠ .name name namePos) (arguments : List Expr) (pos : Pos)
    (machine : Machine) :
    (Expr.call callee arguments pos).searching options machine =
      ending .located (locate options (.call callee arguments pos)) machine := by
  cases callee with
  | name name namePos => exact absurd rfl (unnamed name namePos)
  | _ => rfl

/-- A statement starts with no orphans, as it does when it is executed. -/
def momentsInside (moments : Machine → List Moment) (action : Eval Unit) (machine : Machine) :
    List Moment :=
  let opened := { machine with scopes := [] :: machine.scopes }
  ⟨.opened, opened⟩ :: moments opened ++
    [⟨.closed, (machine.after (Machine.inScope action)).2⟩]

def momentsComplete (options : Options) (condition : Expr) (machine : Machine) : List Moment :=
  condition.moments options { machine with orphans := [] }

def momentsWhile (condition : Eval Value) (body : Eval Unit)
    (tested inside : Machine → List Moment) : Nat → Machine → List Moment
  | 0, _ => []
  | fuel + 1, machine =>
      tested machine ++ onward condition (fun value after =>
        if value.truthy then
          inside after ++
            onward body (fun _ => momentsWhile condition body tested inside fuel) after
        else []) machine

mutual

def Stmt.moments (options : Options) (fuel : Nat) : Stmt → Machine → List Moment
  | .absent, _ => []
  | .eval expr _, machine => momentsComplete options expr machine
  | .block body _, machine =>
      momentsInside (momentsAll options fuel body) (executeAll options fuel body) machine
  | .define name _ initial constant _, machine =>
      momentsComplete options initial machine ++
        onward (Machine.complete (evaluate options initial)) (fun value after =>
          [⟨.defined name, { after with scopes := after.scopes.define name ⟨value, constant⟩ }⟩])
          machine
  | .cond condition body _ otherwise _, machine =>
      momentsComplete options condition machine ++
        onward (Machine.complete (evaluate options condition)) (fun value after =>
          if value.truthy then
            momentsInside (momentsAll options fuel body) (executeAll options fuel body) after
          else if otherwise.isAbsent then []
          else otherwise.moments options fuel after) machine
  | .loop condition body _ _, machine =>
      momentsWhile (Machine.complete (evaluate options condition))
        (Machine.inScope (executeAll options fuel body)) (momentsComplete options condition)
        (momentsInside (momentsAll options fuel body) (executeAll options fuel body)) fuel machine

def momentsAll (options : Options) (fuel : Nat) : List Stmt → Machine → List Moment
  | [], _ => []
  | first :: rest, machine =>
      first.moments options fuel machine ++
        onward (execute options fuel first) (fun _ => momentsAll options fuel rest) machine

end

/-- A program with the way it is run. -/
structure Job where
  options : Options
  fuel : Nat
  program : Program

namespace Job

def action (job : Job) : Eval Unit :=
  job.program.run job.options job.fuel

def moments (job : Job) (machine : Machine) : List Moment :=
  momentsAll job.options job.fuel job.program.body
    { machine with scopes := machine.scopes.getLast?.toList }

end Job

/-- The moments of several programs run one after another, whether or not the earlier ones ended
early. -/
def timeline : List Job → Machine → List Moment
  | [], machine => [⟨.ready, machine⟩]
  | job :: rest, machine =>
      ⟨.ready, machine⟩ :: job.moments machine ++ timeline rest (machine.after job.action).2

end Rover
