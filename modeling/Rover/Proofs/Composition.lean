import Rover.Proofs.Action

/-!
Properties of actions that evaluations have because their steps have them. A property that sequences
inherit from their parts holds of every evaluation once it holds of the primitive steps, so that a
proof about evaluation has to look at these steps alone.
-/

namespace Rover

/-- What is put together of parts with the property has it too, and so has the report of an
error. -/
structure Compositional (options : Options) (holds : ∀ {α : Type}, Eval α → Prop) : Prop where
  pure : ∀ {α : Type} (value : α), holds (Pure.pure value : Eval α)
  throw : ∀ {α : Type} (stop : Stop), holds (MonadExcept.throw stop : Eval α)
  bind : ∀ {α β : Type} {action : Eval α} {next : α → Eval β}, holds action →
    (∀ value, holds (next value)) → holds (action >>= next)
  report : ∀ error, holds (Machine.report options error)

/-- Every primitive step of an evaluation has the property as well. Of the machine, a step may look
at anything but what was written. -/
structure Universal (options : Options) (holds : ∀ {α : Type}, Eval α → Prop) : Prop
    extends Compositional options holds where
  look : ∀ {α : Type} {next : Machine → Eval α},
    (∀ machine events, next { machine with events } = next machine) →
      (∀ machine, holds (next machine)) → holds (get >>= next)
  copy : ∀ value, holds (Machine.copy value)
  newArray : ∀ elements, holds (Machine.newArray elements)
  orphan : ∀ value, holds (Machine.orphan value)
  load : ∀ location : Location, holds location.load
  store : ∀ (location : Location) value, holds (location.store value)
  modifyArray : ∀ stamp change, holds (modify (Machine.modifyArray stamp change) : Eval PUnit)
  write : ∀ bytes, holds (Machine.write options.output bytes)
  flushing : ∀ {action : Eval Value}, holds action → holds (Machine.flushing options.output action)

variable {options : Options} {holds : ∀ {α : Type}, Eval α → Prop}

namespace Compositional

variable (parts : Compositional options holds)

include parts

theorem kindOf (value : Value) : holds (Machine.kindOf value) := by
  unfold Machine.kindOf
  split
  · exact parts.pure _
  · exact parts.throw _

theorem fail (fault : Fault) (pos : Pos) : holds (Machine.fail options fault pos) :=
  parts.report ⟨fault, pos⟩

theorem checkIndex (elements : List Value) (pos : Pos) (index : Value) :
    holds (Rover.checkIndex elements pos index) := by
  unfold Rover.checkIndex
  split
  · split <;> exact parts.pure _
  · exact parts.bind (parts.kindOf _) fun _ => parts.pure _

theorem unary (op : UnaryOp) (operand : Value) (pos : Pos) :
    holds (Operation.unary options op operand pos) := by
  unfold Operation.unary
  split
  · exact parts.pure _
  · exact parts.pure _
  · exact parts.pure _
  · exact parts.pure _
  · exact parts.throw _
  · exact parts.bind (parts.kindOf _) fun _ => parts.fail _ _

theorem mismatch (op : BinaryOp) (left right : Value) (pos : Pos) :
    holds (Operation.mismatch options op left right pos) :=
  parts.bind (parts.kindOf left) fun _ =>
    parts.bind (parts.kindOf right) fun _ => parts.fail _ _

theorem arithmetic (op : BinaryOp) (left right : Value) (pos : Pos) :
    holds (Operation.arithmetic options op left right pos) := by
  unfold Operation.arithmetic
  split
  · split
    · exact parts.pure _
    · exact parts.pure _
    · exact parts.pure _
    · split
      · exact parts.fail _ _
      · exact parts.pure _
  · split <;> exact parts.pure _
  · exact parts.mismatch _ _ _ _

theorem comparison (op : BinaryOp) (left right : Value) (pos : Pos) :
    holds (Operation.comparison options op left right pos) := by
  unfold Operation.comparison
  split
  · exact parts.pure _
  · dsimp only
    split <;> split <;> exact parts.pure _
  · exact parts.mismatch _ _ _ _

theorem binary (op : BinaryOp) (left right : Value) (pos : Pos) :
    holds (Operation.binary options op left right pos) := by
  unfold Operation.binary
  cases op with
  | and | or => exact parts.pure _
  | add | subtract | multiply | divide => exact parts.arithmetic _ left right pos
  | equal | notEqual | less | lessEqual | greater | greaterEqual =>
      exact parts.comparison _ left right pos
  | assign | other _ => exact parts.throw _

theorem collect {actions : List (Eval Value)} (each : ∀ action ∈ actions, holds action) :
    holds (Rover.collect actions) := by
  induction actions with
  | nil => exact parts.pure _
  | cons first rest ih =>
      apply parts.bind (each first List.mem_cons_self)
      intro value
      apply parts.bind (ih fun action member => each action (List.mem_cons_of_mem _ member))
      exact fun values => parts.pure _

end Compositional

namespace Universal

variable (steps : Universal options holds)

include steps

set_option linter.unusedSectionVars false

theorem targetNamed (name : Text) (pos : Pos) : holds (Target.named name pos) := by
  apply steps.look fun _ _ => rfl
  intro machine
  split <;> exact steps.pure _

theorem targetSlot (pos : Pos) {array : Eval Located} {index : Eval Value}
    (located : holds array) (evaluated : holds index) : holds (Target.slot pos array index) := by
  apply steps.bind located
  intro found
  split
  · exact steps.pure _
  · apply steps.bind evaluated
    intro position
    apply steps.bind (steps.load _)
    intro loaded
    split
    · apply steps.bind (steps.checkIndex _ _ _)
      intro checked
      split <;> exact steps.pure _
    · exact steps.bind (steps.kindOf _) fun _ => steps.pure _

theorem targetArray (builtin : Builtin) (pos : Pos) {target : Eval Located}
    (located : holds target) : holds (Target.array builtin pos target) := by
  apply steps.bind located
  intro found
  split
  · split <;> exact steps.pure _
  · apply steps.bind (steps.load _)
    intro loaded
    split
    · split <;> exact steps.pure _
    · exact steps.bind (steps.kindOf _) fun _ => steps.pure _

theorem targetPush (pos : Pos) {target : Eval Located} {value : Eval Value}
    (located : holds target) (evaluated : holds value) : holds (Target.push pos target value) := by
  apply steps.bind evaluated
  intro value
  apply steps.bind (steps.targetArray _ _ located)
  intro found
  split
  · exact steps.pure _
  · apply steps.bind (steps.copy value)
    intro copied
    exact steps.bind (steps.modifyArray _ _) fun _ => steps.pure _

theorem readVariable (name : Text) (pos : Pos) : holds (Rover.readVariable options name pos) := by
  apply steps.look fun _ _ => rfl
  intro machine
  split
  · exact steps.copy _
  · exact steps.fail _ _

theorem assign (pos : Pos) {target : Eval Located} {value : Eval Value} (located : holds target)
    (evaluated : holds value) : holds (Rover.assign options pos target value) := by
  apply steps.bind evaluated
  intro value
  apply steps.bind located
  intro found
  split
  · exact steps.report _
  · split
    · exact steps.fail _ _
    · apply steps.bind (steps.store _ _)
      intro stored
      split
      · exact steps.pure _
      · exact steps.fail _ _

theorem readElement (pos : Pos) {array index : Eval Value} (evaluatedArray : holds array)
    (evaluatedIndex : holds index) : holds (Rover.readElement options pos array index) := by
  apply steps.bind evaluatedArray
  intro value
  split
  · apply steps.bind evaluatedIndex
    intro position
    apply steps.bind (steps.checkIndex _ _ _)
    intro checked
    split
    · exact steps.report _
    · exact steps.copy _
  · exact steps.bind (steps.kindOf _) fun _ => steps.fail _ _

theorem lengthOf (pos : Pos) {array : Eval Value} (evaluated : holds array) :
    holds (Rover.lengthOf options pos array) := by
  apply steps.bind evaluated
  intro value
  split
  · exact steps.pure _
  · exact steps.bind (steps.kindOf _) fun _ => steps.fail _ _

theorem pushTo (pos : Pos) {target : Eval Located} {value : Eval Value} (located : holds target)
    (evaluated : holds value) : holds (Rover.pushTo options pos target value) := by
  apply steps.bind (steps.targetPush _ located evaluated)
  intro found
  split
  · exact steps.report _
  · exact steps.bind (steps.load _) fun _ => steps.copy _

theorem popFrom (pos : Pos) {target : Eval Located} (located : holds target) :
    holds (Rover.popFrom options pos target) := by
  apply steps.bind (steps.targetArray _ _ located)
  intro found
  split
  · exact steps.report _
  · apply steps.look fun _ _ => rfl
    intro machine
    split
    · exact steps.pure _
    · apply steps.bind (steps.orphan _)
      intro _
      exact steps.bind (steps.modifyArray _ _) fun _ => steps.pure _

theorem fill (pos : Pos) (template : Template) :
    ∀ (pending : Text) {actions : List (Eval Value)}, (∀ action ∈ actions, holds action) →
      holds (Printf.fill options pos pending template actions) := by
  induction template with
  | finish before =>
      intro pending actions _
      exact steps.bind (steps.write _) fun _ => steps.pure _
  | malformed before fault =>
      intro pending actions _
      exact steps.bind (steps.write _) fun _ => steps.fail _ _
  | hole before rest ih =>
      intro pending actions each
      cases actions with
      | nil => exact steps.bind (steps.write _) fun _ => steps.fail _ _
      | cons first others =>
          apply steps.bind (steps.write _)
          intro _
          apply steps.bind (each first List.mem_cons_self)
          intro value
          exact ih value.printed fun action member => each action (List.mem_cons_of_mem _ member)

theorem printf (pos : Pos) {actions : List (Eval Value)} (each : ∀ action ∈ actions, holds action) :
    holds (Printf.call options pos actions) := by
  cases actions with
  | nil => exact steps.fail _ _
  | cons format arguments =>
      apply steps.bind (each format List.mem_cons_self)
      intro value
      split
      · apply steps.flushing
        exact steps.fill _ _ _ fun action member => each action (List.mem_cons_of_mem _ member)
      · exact steps.bind (steps.kindOf _) fun _ => steps.fail _ _

mutual

theorem evaluate (expr : Expr) : holds (Rover.evaluate options expr) := by
  cases expr with
  | absent =>
      rw [Rover.evaluate]
      exact steps.throw _
  | int digits pos =>
      rw [Rover.evaluate]
      split
      · exact steps.pure _
      · exact steps.fail _ _
  | float digits pos =>
      rw [Rover.evaluate]
      split
      · exact steps.pure _
      · exact steps.fail _ _
  | str value pos =>
      rw [Rover.evaluate]
      exact steps.pure _
  | name name pos =>
      rw [Rover.evaluate]
      exact steps.readVariable _ _
  | array elements pos =>
      rw [Rover.evaluate]
      exact steps.bind (steps.collect (evaluateEach elements)) fun _ => steps.newArray _
  | unary op operand pos =>
      rw [Rover.evaluate]
      exact steps.bind (evaluate operand) fun _ => steps.unary _ _ _
  | binary op left right pos =>
      by_cases assigns : op = .assign
      · subst assigns
        rw [Rover.evaluate]
        exact steps.assign _ (locate left) (evaluate right)
      · rw [evaluate_binary options assigns]
        exact steps.bind (evaluate left) fun _ =>
          steps.bind (evaluate right) fun _ => steps.binary _ _ _ _
  | index array index pos =>
      rw [Rover.evaluate]
      exact steps.readElement _ (evaluate array) (evaluate index)
  | call callee arguments pos =>
      by_cases named : ∃ name namePos, callee = .name name namePos
      · obtain ⟨name, namePos, rfl⟩ := named
        rw [evaluate_call]
        have each := evaluateEach arguments
        split
        · exact steps.fail _ _
        · exact steps.printf _ each
        · split
          · exact steps.lengthOf _ (evaluate _)
          · exact steps.fail _ _
        · split
          · exact steps.pushTo _ (locate _) (evaluate _)
          · exact steps.fail _ _
        · split
          · exact steps.popFrom _ (locate _)
          · exact steps.fail _ _
      · rw [evaluate_call_other options fun name namePos same => named ⟨name, namePos, same⟩]
        exact steps.fail _ _

theorem evaluateEach (exprs : List Expr) :
    ∀ action ∈ Rover.evaluateEach options exprs, holds action := by
  cases exprs with
  | nil => simp [Rover.evaluateEach]
  | cons first rest =>
      intro action member
      rw [Rover.evaluateEach] at member
      rcases List.mem_cons.mp member with rfl | inRest
      · exact evaluate first
      · exact evaluateEach rest action inRest

theorem locate (expr : Expr) : holds (Rover.locate options expr) := by
  cases expr with
  | name name pos =>
      rw [Rover.locate]
      exact steps.targetNamed _ _
  | index array index pos =>
      rw [Rover.locate]
      exact steps.targetSlot _ (locate array) (evaluate index)
  | call callee arguments pos =>
      by_cases named : ∃ name namePos, callee = .name name namePos
      · obtain ⟨name, namePos, rfl⟩ := named
        rw [locate_call]
        split
        · split
          · exact steps.targetPush _ (locate _) (evaluate _)
          · exact steps.pure _
        · exact steps.pure _
      · rw [locate_call_other options fun name namePos same => named ⟨name, namePos, same⟩]
        exact steps.pure _
  | _ => exact steps.pure _

end

end Universal

end Rover
