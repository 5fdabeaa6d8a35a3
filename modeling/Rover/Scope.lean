import Rover.Text

/-!
A scope binds names to values. Scopes are nested: a name means its binding in the nearest scope
that has one. A constant binding can be replaced by a new definition in its own scope but cannot be
assigned to.
-/

namespace Rover

structure Binding (α : Type) where
  value : α
  constant : Bool
  deriving DecidableEq, Repr

/-- The names of one scope, each with its binding, in the order of their first definition. -/
abbrev Scope (α : Type) := List (Text × Binding α)

inductive BindingError where
  | undefined (name : Text)
  | constant (name : Text)
  deriving DecidableEq, Repr

def BindingError.message : BindingError → Text
  | undefined name => text "undefined variable '" ++ name ++ text "'"
  | constant name => text "cannot assign to constant '" ++ name ++ text "'"

namespace Scope

variable {α : Type}

def find? (scope : Scope α) (name : Text) : Option (Binding α) :=
  match scope with
  | [] => none
  | (own, binding) :: rest => if own = name then some binding else find? rest name

/-- Inserts a binding, or replaces the one the name has. -/
def define (name : Text) (binding : Binding α) : Scope α → Scope α
  | [] => [(name, binding)]
  | (own, old) :: rest =>
      if own = name then (own, binding) :: rest else (own, old) :: define name binding rest

def names (scope : Scope α) : List Text :=
  scope.map (·.1)

def keys (scope : Scope α) : List Text :=
  Text.sorted scope.names

def listing (scope : Scope α) : List (Text × Binding α) :=
  scope.keys.filterMap fun name => (find? scope name).map (name, ·)

@[simp] theorem find?_nil (name : Text) : find? ([] : Scope α) name = none := rfl

theorem find?_define (scope : Scope α) (name other : Text) (binding : Binding α) :
    find? (define name binding scope) other =
      if name = other then some binding else find? scope other := by
  induction scope with
  | nil => simp [define, find?]
  | cons entry rest ih =>
      obtain ⟨own, old⟩ := entry
      simp only [define]
      split
      · next same =>
          subst same
          simp only [find?]
          split <;> rfl
      · next differs =>
          simp only [find?, ih]
          split
          · next same =>
              subst same
              rw [if_neg (fun equal => differs equal.symm)]
          · rfl

end Scope

/-- A chain lists the scopes from the innermost outward. -/
abbrev Chain (α : Type) := List (Scope α)

namespace Chain

variable {α : Type}

def find? (chain : Chain α) (name : Text) : Option (Binding α) :=
  match chain with
  | [] => none
  | scope :: outer =>
      match scope.find? name with
      | some binding => some binding
      | none => find? outer name

/-- Binds a name in the innermost scope. -/
def define (name : Text) (binding : Binding α) : Chain α → Chain α
  | [] => []
  | scope :: outer => scope.define name binding :: outer

def set (name : Text) (value : α) : Chain α → Chain α
  | [] => []
  | scope :: outer =>
      match scope.find? name with
      | some binding => scope.define name { binding with value } :: outer
      | none => scope :: set name value outer

/-- Assigns to the nearest binding of a name, unless there is none or it is constant. -/
def assign (name : Text) (value : α) (chain : Chain α) : Except BindingError (Chain α) :=
  match chain.find? name with
  | none => .error (.undefined name)
  | some binding =>
      if binding.constant then .error (.constant name) else .ok (chain.set name value)

end Chain
end Rover
