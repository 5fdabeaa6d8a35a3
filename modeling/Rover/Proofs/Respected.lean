import Rover.Proofs.Composition
import Rover.Proofs.Stamps

/-!
Relations that hold between any machine and the one that an action leaves, however the action ends.
A relation that the primitive changes of evaluation preserve is respected by every evaluation, and
one that definitions and scopes respect as well is respected by every execution. What is written and
recorded may be in the relation step by step, or only once an error is reported as a whole.
-/

namespace Rover

/-- Every primitive change of a machine's values is in the relation. -/
structure Steady (related : Machine → Machine → Prop) : Prop where
  refl : ∀ machine, related machine machine
  trans : ∀ {first second third}, related first second → related second third → related first third
  next : ∀ machine next, machine.next ≤ next → related machine { machine with next }
  orphans : ∀ machine orphans, related machine { machine with orphans }
  array : ∀ machine stamp change, related machine (machine.modifyArray stamp change)
  set : ∀ machine name value,
    related machine { machine with scopes := machine.scopes.set name value }

/-- Every primitive change that an expression makes to a machine is in the relation. -/
structure Preserved (related : Machine → Machine → Prop) : Prop extends Steady related where
  event : ∀ machine event, related machine { machine with events := machine.events.push event }
  error : ∀ machine error, related machine { machine with errors := machine.errors.push error }

/-- Every primitive change of a machine is in the relation. -/
structure Respected (related : Machine → Machine → Prop) : Prop extends Preserved related where
  define : ∀ machine name binding,
    related machine { machine with scopes := machine.scopes.define name binding }
  scope : ∀ machine after, related { machine with scopes := [] :: machine.scopes } after →
    related machine { after with scopes := after.scopes.tail }

def Respects (related : Machine → Machine → Prop) {α : Type} (action : Eval α) : Prop :=
  ∀ machine, Leads action machine (fun _ after => related machine after)
    (fun _ after => related machine after)

/-- Changes of values, program output and reports of errors, each as a whole, are in the
relation. -/
structure Tracks (options : Options) (related : Machine → Machine → Prop) : Prop
    extends Steady related where
  write : ∀ bytes, Respects related (Machine.write options.output bytes)
  flushed : ∀ machine, related machine (machine.flushed options.output)
  report : ∀ error, Respects related (Machine.report options error)

structure Follows (options : Options) (related : Machine → Machine → Prop) : Prop
    extends Tracks options related where
  define : ∀ machine name binding,
    related machine { machine with scopes := machine.scopes.define name binding }
  scope : ∀ machine after, related { machine with scopes := [] :: machine.scopes } after →
    related machine { after with scopes := after.scopes.tail }

namespace Steady

variable {related : Machine → Machine → Prop} (steady : Steady related)
variable {α β : Type}

include steady

theorem pure (value : α) : Respects related (Pure.pure value : Eval α) :=
  fun machine => steady.refl machine

theorem throw (stop : Stop) : Respects related (MonadExcept.throw stop : Eval α) :=
  fun machine => steady.refl machine

theorem get : Respects related (MonadState.get : Eval Machine) :=
  fun machine => steady.refl machine

theorem bind {action : Eval α} {next : α → Eval β} (first : Respects related action)
    (second : ∀ value, Respects related (next value)) : Respects related (action >>= next) := by
  intro machine
  rw [leads_bind]
  apply (first machine).mono
  · intro value middle reached
    exact (second value middle).mono (fun _ _ => steady.trans reached)
      (fun _ _ => steady.trans reached)
  · exact fun _ _ stopped => stopped

theorem flushing {writer : Option Writer} {action : Eval α}
    (flushed : ∀ machine : Machine, related machine (machine.flushed writer))
    (inner : Respects related action) : Respects related (Machine.flushing writer action) := by
  intro machine
  rw [leads_flushing]
  exact (inner machine).mono (fun _ after reached => steady.trans reached (flushed after))
    (fun _ after reached => steady.trans reached (flushed after))

theorem copy (value : Value) : Respects related (Machine.copy value) :=
  fun machine => steady.next machine _ (Value.le_copy_next machine.next value)

theorem newArray (elements : List Value) : Respects related (Machine.newArray elements) :=
  fun machine => steady.next machine _ (Nat.le_succ machine.next)

theorem orphan (value : Value) : Respects related (Machine.orphan value) :=
  fun machine => steady.orphans machine _

theorem load (location : Location) : Respects related location.load := by
  intro machine
  obtain ⟨place, constant, root⟩ := location
  cases place with
  | named name =>
      rw [leads_load_named]
      exact steady.refl machine
  | slot stamp index =>
      rw [leads_load_slot]
      split <;> exact steady.refl machine

theorem store (location : Location) (value : Value) : Respects related (location.store value) := by
  intro machine
  have stamped := steady.next machine _ (Value.le_copy_next machine.next value)
  obtain ⟨place, constant, root⟩ := location
  cases place with
  | named name =>
      rw [leads_store_named]
      split
      · exact stamped
      · next binding _ =>
          split
          · exact stamped
          · have set := steady.set { machine with next := (value.copy machine.next).2 } name
              (value.copy machine.next).1
            exact steady.trans stamped (steady.trans set
              (steady.orphans _ (binding.value :: machine.orphans)))
  | slot stamp index =>
      rw [leads_store_slot]
      split
      · next old _ =>
          have loose := steady.orphans { machine with next := (value.copy machine.next).2 }
            (old :: machine.orphans)
          exact steady.trans stamped (steady.trans loose (steady.array _ _ _))
      · exact stamped

theorem complete {action : Eval α} (inner : Respects related action) :
    Respects related (Machine.complete action) := by
  intro machine
  rw [leads_complete]
  have cleared := steady.orphans machine []
  exact (inner _).mono
    (fun _ after reached =>
      steady.trans cleared (steady.trans reached (steady.orphans after [])))
    (fun _ after reached =>
      steady.trans cleared (steady.trans reached (steady.orphans after [])))

theorem repeatWhile {condition : Eval Value} {body : Eval Unit}
    (tested : Respects related condition) (repeated : Respects related body) (fuel : Nat) :
    Respects related (Rover.repeatWhile condition body fuel) := by
  induction fuel with
  | zero => exact steady.throw _
  | succ fuel ih =>
      apply steady.bind tested
      intro value
      split
      · exact steady.bind repeated fun _ => ih
      · exact steady.pure _

end Steady

namespace Preserved

variable {related : Machine → Machine → Prop} (preserved : Preserved related)

include preserved

theorem write (writer : Option Writer) (bytes : Text) :
    Respects related (Machine.write writer bytes) := by
  cases writer with
  | none => exact preserved.pure _
  | some writer =>
      intro machine
      unfold Machine.write
      dsimp only
      split
      · exact preserved.refl machine
      · exact preserved.event machine _

theorem flushed (writer : Option Writer) (machine : Machine) :
    related machine (machine.flushed writer) := by
  unfold Machine.flushed
  split
  · split
    · exact preserved.event machine .flushed
    · exact preserved.refl machine
  · exact preserved.refl machine

theorem report (options : Options) (error : RuntimeError) :
    Respects related (Machine.report options error) := by
  unfold Machine.report
  apply preserved.bind
  · exact fun machine => preserved.error machine error
  · intro _
    split
    · exact preserved.bind (preserved.throw _)
        fun _ => preserved.bind (preserved.write _ _) fun _ => preserved.pure _
    · exact preserved.bind (preserved.write _ _) fun _ => preserved.pure _

theorem tracks (options : Options) : Tracks options related where
  toSteady := preserved.toSteady
  write := preserved.write options.output
  flushed := preserved.flushed options.output
  report := preserved.report options

end Preserved

theorem Respected.follows {related : Machine → Machine → Prop} (respected : Respected related)
    (options : Options) : Follows options related where
  toTracks := respected.tracks options
  define := respected.define
  scope := respected.scope

theorem Tracks.universal {options : Options} {related : Machine → Machine → Prop}
    (tracks : Tracks options related) : Universal options (Respects related) where
  pure := tracks.pure
  throw := tracks.throw
  bind := tracks.bind
  report := tracks.report
  look _ each := tracks.bind tracks.get each
  copy := tracks.copy
  newArray := tracks.newArray
  orphan := tracks.orphan
  load := tracks.load
  store := tracks.store
  modifyArray stamp change machine := tracks.array machine stamp change
  write := tracks.write
  flushing := tracks.flushing tracks.flushed

theorem Preserved.evaluate {related : Machine → Machine → Prop} (preserved : Preserved related)
    (options : Options) (expr : Expr) : Respects related (Rover.evaluate options expr) :=
  (preserved.tracks options).universal.evaluate expr

theorem Respects.inScope {related : Machine → Machine → Prop} {α : Type} {action : Eval α}
    (inner : Respects related action)
    (scope : ∀ machine after, related { machine with scopes := [] :: machine.scopes } after →
      related machine { after with scopes := after.scopes.tail }) :
    Respects related (Machine.inScope action) := by
  intro machine
  rw [leads_inScope]
  exact (inner _).mono (fun _ after => scope machine after) (fun _ after => scope machine after)

namespace Follows

variable {options : Options} {related : Machine → Machine → Prop}
  (follows : Follows options related)

include follows

mutual

theorem execute (fuel : Nat) (stmt : Stmt) :
    Respects related (Rover.execute options fuel stmt) := by
  cases stmt with
  | absent =>
      rw [Rover.execute]
      exact follows.throw _
  | eval expr pos =>
      rw [Rover.execute]
      exact follows.bind (follows.complete (follows.universal.evaluate expr))
        fun _ => follows.pure _
  | block body pos =>
      rw [Rover.execute]
      exact (executeAll fuel body).inScope follows.scope
  | define name namePos initial constant pos =>
      rw [Rover.execute]
      apply follows.bind (follows.complete (follows.universal.evaluate initial))
      exact fun value machine => follows.define machine name _
  | cond condition body bodyPos otherwise pos =>
      rw [Rover.execute]
      apply follows.bind (follows.complete (follows.universal.evaluate condition))
      intro value
      split
      · exact (executeAll fuel body).inScope follows.scope
      · split
        · exact follows.pure _
        · exact execute fuel otherwise
  | loop condition body bodyPos pos =>
      rw [Rover.execute]
      exact follows.repeatWhile (follows.complete (follows.universal.evaluate condition))
        ((executeAll fuel body).inScope follows.scope) fuel

theorem executeAll (fuel : Nat) (stmts : List Stmt) :
    Respects related (Rover.executeAll options fuel stmts) := by
  cases stmts with
  | nil =>
      rw [Rover.executeAll]
      exact follows.pure _
  | cons first rest =>
      rw [Rover.executeAll]
      exact follows.bind (execute fuel first) fun _ => executeAll fuel rest

end

end Follows

theorem Respected.executeAll {related : Machine → Machine → Prop} (respected : Respected related)
    (options : Options) (fuel : Nat) (stmts : List Stmt) :
    Respects related (Rover.executeAll options fuel stmts) :=
  (respected.follows options).executeAll fuel stmts

theorem Chain.define_length (chain : Chain Value) (name : Text) (binding : Binding Value) :
    (chain.define name binding).length = chain.length := by
  cases chain <;> rfl

theorem Chain.set_length (chain : Chain Value) (name : Text) (value : Value) :
    (chain.set name value).length = chain.length := by
  induction chain with
  | nil => rfl
  | cons scope outer ih =>
      simp only [Chain.set]
      split
      · rfl
      · rw [List.length_cons, List.length_cons, ih]

theorem scopes_length_respected :
    Respected fun old new => new.scopes.length = old.scopes.length where
  refl _ := rfl
  trans first second := second.trans first
  event _ _ := rfl
  error _ _ := rfl
  next _ _ _ := rfl
  orphans _ _ := rfl
  array _ _ _ := List.length_map _
  set machine name value := Chain.set_length machine.scopes name value
  define machine name binding := Chain.define_length machine.scopes name binding
  scope machine after same := by
    rw [List.length_tail, same]
    rfl

end Rover
