import Rover.Scope

/-!
A tree of scopes: every scope but the first has a parent, and many scopes may share one. Each scope
is known by its index in the order of creation.
-/

namespace Rover

structure ScopeNode (α : Type) where
  scope : Scope α
  parent : Option Nat

/-- Parents come before their children. -/
structure ScopeTree (α : Type) where
  nodes : List (ScopeNode α)

namespace ScopeTree

variable {α : Type}

def new : ScopeTree α := ⟨[⟨[], none⟩]⟩

def node? (tree : ScopeTree α) (index : Nat) : Option (ScopeNode α) :=
  tree.nodes[index]?

def extend (tree : ScopeTree α) (parent : Nat) : Nat × ScopeTree α :=
  (tree.nodes.length, ⟨tree.nodes ++ [⟨[], some parent⟩]⟩)

def parent? (tree : ScopeTree α) (index : Nat) : Option Nat :=
  (tree.node? index).bind (·.parent)

def scope (tree : ScopeTree α) (index : Nat) : Scope α :=
  ((tree.node? index).map (·.scope)).getD []

/-- The scope, from the given one outward, that binds the name. A parent that does not come before
its child is not followed. -/
def owner? (tree : ScopeTree α) (index : Nat) (name : Text) : Option Nat :=
  if ((tree.scope index).find? name).isSome then some index
  else
    match tree.parent? index with
    | none => none
    | some parent => if parent < index then tree.owner? parent name else none
termination_by index

def lookup? (tree : ScopeTree α) (index : Nat) (name : Text) : Option (Binding α) :=
  (tree.owner? index name).bind fun owner => (tree.scope owner).find? name

def update (tree : ScopeTree α) (index : Nat) (change : Scope α → Scope α) : ScopeTree α :=
  ⟨tree.nodes.modify index fun node => { node with scope := change node.scope }⟩

def define (tree : ScopeTree α) (index : Nat) (name : Text) (binding : Binding α) : ScopeTree α :=
  tree.update index (·.define name binding)

/-- Assigns to the nearest binding of a name, unless there is none or it is constant. -/
def assign (tree : ScopeTree α) (index : Nat) (name : Text) (value : α) :
    Except BindingError (ScopeTree α) :=
  match tree.owner? index name, tree.lookup? index name with
  | some owner, some binding =>
      if binding.constant then .error (.constant name)
      else .ok (tree.define owner name { binding with value })
  | _, _ => .error (.undefined name)

def get (tree : ScopeTree α) (index : Nat) (name : Text) : Except BindingError α :=
  match tree.lookup? index name with
  | some binding => .ok binding.value
  | none => .error (.undefined name)

def keys (tree : ScopeTree α) (index : Nat) : List Text :=
  (tree.scope index).keys

def snapshot (tree : ScopeTree α) (index : Nat) : List (Text × α) :=
  (tree.scope index).listing.map fun entry => (entry.1, entry.2.value)

end ScopeTree
end Rover
