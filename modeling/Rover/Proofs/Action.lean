import Rover.Execution

/-!
Reasoning about actions. `Leads` says how an action ends from a given machine, and is taken apart
along the structure of the action. Places are described by what reading and changing them does.
-/

namespace Rover

theorem evaluate_binary (options : Options) {op : BinaryOp} (differs : op ≠ .assign)
    (left right : Expr) (pos : Pos) :
    evaluate options (.binary op left right pos) =
      (do
        let first ← evaluate options left
        let second ← evaluate options right
        Operation.binary options op first second pos) := by
  rw [evaluate]
  exact differs

theorem evaluate_call (options : Options) (name : Text) (namePos : Pos) (arguments : List Expr)
    (pos : Pos) :
    evaluate options (.call (.name name namePos) arguments pos) =
      match Builtin.ofName? name with
      | none => Machine.fail options (.unknownFunction name) pos
      | some .printf => Printf.call options pos (evaluateEach options arguments)
      | some .length =>
          match arguments with
          | [array] => lengthOf options pos (evaluate options array)
          | _ => Machine.fail options (.arity .length 1 arguments.length) pos
      | some .push =>
          match arguments with
          | [target, value] => pushTo options pos (locate options target) (evaluate options value)
          | _ => Machine.fail options (.arity .push 2 arguments.length) pos
      | some .pop =>
          match arguments with
          | [target] => popFrom options pos (locate options target)
          | _ => Machine.fail options (.arity .pop 1 arguments.length) pos :=
  evaluate.eq_def options (.call (.name name namePos) arguments pos)

theorem evaluate_call_other (options : Options) {callee : Expr}
    (unnamed : ∀ name namePos, callee ≠ .name name namePos) (arguments : List Expr) (pos : Pos) :
    evaluate options (.call callee arguments pos) = Machine.fail options .callee pos := by
  rw [evaluate]
  exact unnamed

theorem locate_call (options : Options) (name : Text) (namePos : Pos) (arguments : List Expr)
    (pos : Pos) :
    locate options (.call (.name name namePos) arguments pos) =
      if name = Builtin.push.name then
        match arguments with
        | [target, value] => Target.push pos (locate options target) (evaluate options value)
        | _ => pure (.error ⟨.arity .push 2 arguments.length, pos⟩)
      else pure (.error ⟨.target, pos⟩) :=
  locate.eq_def options (.call (.name name namePos) arguments pos)

theorem locate_call_other (options : Options) {callee : Expr}
    (unnamed : ∀ name namePos, callee ≠ .name name namePos) (arguments : List Expr) (pos : Pos) :
    locate options (.call callee arguments pos) = pure (.error ⟨.target, pos⟩) := by
  rw [locate.eq_def]
  cases callee with
  | name name namePos => exact absurd rfl (unnamed name namePos)
  | _ => rfl

theorem bind_of_ok {α β : Type} {action : Eval α} {next : α → Eval β} {machine after : Machine}
    {value : α} (result : action machine = .ok value after) :
    (action >>= next) machine = next value after := by
  change EStateM.bind action next machine = _
  rw [EStateM.bind, result]

theorem get_bind {α : Type} (next : Machine → Eval α) (machine : Machine) :
    (get >>= next) machine = next machine machine :=
  rfl

theorem bind_of_error {α β : Type} {action : Eval α} {next : α → Eval β} {machine after : Machine}
    {stop : Stop} (result : action machine = .error stop after) :
    (action >>= next) machine = .error stop after := by
  change EStateM.bind action next machine = _
  rw [EStateM.bind, result]

/-- The machine after its output was flushed, if the writer holds text back. -/
def Machine.flushed (writer : Option Writer) (machine : Machine) : Machine :=
  match writer with
  | some writer =>
      if writer.flushes then { machine with events := machine.events.push .flushed } else machine
  | none => machine

@[simp] theorem Machine.flushed_scopes (writer : Option Writer) (machine : Machine) :
    (machine.flushed writer).scopes = machine.scopes := by
  unfold flushed
  split
  · split <;> rfl
  · rfl

@[simp] theorem Machine.flushed_orphans (writer : Option Writer) (machine : Machine) :
    (machine.flushed writer).orphans = machine.orphans := by
  unfold flushed
  split
  · split <;> rfl
  · rfl

@[simp] theorem Machine.flushed_next (writer : Option Writer) (machine : Machine) :
    (machine.flushed writer).next = machine.next := by
  unfold flushed
  split
  · split <;> rfl
  · rfl

def Leads {α : Type} (action : Eval α) (machine : Machine) (done : α → Machine → Prop)
    (stopped : Stop → Machine → Prop) : Prop :=
  match action machine with
  | .ok value after => done value after
  | .error stop after => stopped stop after

section Leads

variable {α β : Type} {machine : Machine} {done : α → Machine → Prop}
  {stopped : Stop → Machine → Prop}

@[simp] theorem leads_pure (value : α) :
    Leads (pure value) machine done stopped ↔ done value machine := Iff.rfl

@[simp] theorem leads_throw (stop : Stop) :
    Leads (throw stop : Eval α) machine done stopped ↔ stopped stop machine := Iff.rfl

@[simp] theorem leads_get {done : Machine → Machine → Prop} :
    Leads get machine done stopped ↔ done machine machine := Iff.rfl

@[simp] theorem leads_modify (change : Machine → Machine) {done : PUnit → Machine → Prop} :
    Leads (modify change) machine done stopped ↔ done ⟨⟩ (change machine) := Iff.rfl

@[simp] theorem leads_modifyGet (change : Machine → α × Machine) :
    Leads (modifyGet change) machine done stopped ↔
      done (change machine).1 (change machine).2 := Iff.rfl

@[simp] theorem leads_bind (action : Eval α) (next : α → Eval β) {done : β → Machine → Prop} :
    Leads (action >>= next) machine done stopped ↔
      Leads action machine (fun value after => Leads (next value) after done stopped) stopped := by
  unfold Leads
  change (match EStateM.bind action next machine with | .ok value after => _ | .error _ _ => _) ↔ _
  unfold EStateM.bind
  cases action machine <;> rfl

theorem Leads.mono {action : Eval α} {done' : α → Machine → Prop} {stopped' : Stop → Machine → Prop}
    (leads : Leads action machine done stopped)
    (onDone : ∀ value after, done value after → done' value after)
    (onStopped : ∀ stop after, stopped stop after → stopped' stop after) :
    Leads action machine done' stopped' := by
  unfold Leads at leads ⊢
  cases result : action machine with
  | ok value after =>
      rw [result] at leads
      exact onDone value after leads
  | error stop after =>
      rw [result] at leads
      exact onStopped stop after leads

theorem leads_iff_of_ok {action : Eval α} {value : α} {after : Machine}
    (result : action machine = .ok value after) :
    Leads action machine done stopped ↔ done value after := by
  unfold Leads
  rw [result]

theorem leads_iff_of_error {action : Eval α} {stop : Stop} {after : Machine}
    (result : action machine = .error stop after) :
    Leads action machine done stopped ↔ stopped stop after := by
  unfold Leads
  rw [result]

theorem Leads.of_ok {action : Eval α} (leads : Leads action machine done stopped) {value : α}
    {after : Machine} (result : action machine = .ok value after) : done value after :=
  (leads_iff_of_ok result).mp leads

theorem Leads.of_error {action : Eval α} (leads : Leads action machine done stopped) {stop : Stop}
    {after : Machine} (result : action machine = .error stop after) : stopped stop after :=
  (leads_iff_of_error result).mp leads

theorem leads_flushing (writer : Option Writer) (action : Eval α) :
    Leads (Machine.flushing writer action) machine done stopped ↔
      Leads action machine (fun value after => done value (after.flushed writer))
        (fun stop after => stopped stop (after.flushed writer)) := by
  unfold Leads Machine.flushing
  cases action machine <;> rfl

theorem leads_inScope (action : Eval α) :
    Leads (Machine.inScope action) machine done stopped ↔
      Leads action { machine with scopes := [] :: machine.scopes }
        (fun value after => done value { after with scopes := after.scopes.tail })
        (fun stop after => stopped stop { after with scopes := after.scopes.tail }) := by
  unfold Leads Machine.inScope
  dsimp only
  cases action { machine with scopes := [] :: machine.scopes } <;> rfl

theorem leads_complete (action : Eval α) :
    Leads (Machine.complete action) machine done stopped ↔
      Leads action { machine with orphans := [] }
        (fun value after => done value { after with orphans := [] })
        (fun stop after => stopped stop { after with orphans := [] }) := by
  unfold Leads Machine.complete
  cases action { machine with orphans := [] } <;> rfl

theorem leads_globally (action : Eval α) :
    Leads (Machine.globally action) machine done stopped ↔
      Leads action { machine with scopes := machine.scopes.getLast?.toList }
        (fun value after =>
          done value { after with scopes := machine.scopes.dropLast ++ after.scopes })
        (fun stop after =>
          stopped stop { after with scopes := machine.scopes.dropLast ++ after.scopes }) := by
  unfold Leads Machine.globally
  dsimp only
  cases action { machine with scopes := machine.scopes.getLast?.toList } <;> rfl

theorem leads_load_named (name root : Text) (constant : Bool) {done : Value → Machine → Prop} :
    Leads (Location.load ⟨.named name, constant, root⟩) machine done stopped ↔
      done (((machine.scopes.find? name).map (·.value)).getD .nothing) machine := Iff.rfl

theorem leads_load_slot (stamp : Stamp) (index : Nat) (constant : Bool) (root : Text)
    {done : Value → Machine → Prop} :
    Leads (Location.load ⟨.slot stamp index, constant, root⟩) machine done stopped ↔
      match ((machine.array? stamp).getD [])[index]? with
      | some value => done value machine
      | none =>
          stopped (.crash (.lostElement index ((machine.array? stamp).getD []).length))
            machine := by
  unfold Location.load
  rw [leads_bind, leads_get]
  dsimp only
  cases ((machine.array? stamp).getD [])[index]? <;> rfl

theorem leads_store_named (name root : Text) (constant : Bool) (value : Value)
    {done : Except BindingError Unit → Machine → Prop} :
    Leads (Location.store ⟨.named name, constant, root⟩ value) machine done stopped ↔
      match machine.scopes.find? name with
      | none => done (.error (.undefined name)) { machine with next := (value.copy machine.next).2 }
      | some binding =>
          if binding.constant then
            done (.error (.constant name)) { machine with next := (value.copy machine.next).2 }
          else
            done (.ok ()) { machine with
              next := (value.copy machine.next).2
              orphans := binding.value :: machine.orphans
              scopes := machine.scopes.set name (value.copy machine.next).1 } := by
  unfold Location.store Machine.copy
  rw [leads_bind, leads_modifyGet]
  dsimp only
  rw [leads_bind, leads_get, Chain.assign]
  dsimp only
  cases found : machine.scopes.find? name with
  | none => rfl
  | some binding =>
      by_cases fixed : binding.constant = true
      · simp only [fixed, if_true]
        rfl
      · simp only [fixed]
        rw [if_neg Bool.false_ne_true, if_neg Bool.false_ne_true, leads_bind, leads_load_named]
        simp only [found, Option.map_some, Option.getD_some]
        rfl

theorem leads_store_slot (stamp : Stamp) (index : Nat) (constant : Bool) (root : Text)
    (value : Value) {done : Except BindingError Unit → Machine → Prop} :
    Leads (Location.store ⟨.slot stamp index, constant, root⟩ value) machine done stopped ↔
      match ((machine.array? stamp).getD [])[index]? with
      | some old =>
          done (.ok ()) (Machine.modifyArray stamp (·.set index (value.copy machine.next).1)
            { machine with
              next := (value.copy machine.next).2
              orphans := old :: machine.orphans })
      | none =>
          stopped (.crash (.lostElement index ((machine.array? stamp).getD []).length))
            { machine with next := (value.copy machine.next).2 } := by
  unfold Location.store Machine.copy
  rw [leads_bind, leads_modifyGet]
  dsimp only
  have unchanged : Machine.array? { machine with next := (value.copy machine.next).2 } stamp =
      machine.array? stamp := rfl
  rw [leads_bind, leads_load_slot, unchanged]
  cases ((machine.array? stamp).getD [])[index]? <;> rfl

end Leads

end Rover
