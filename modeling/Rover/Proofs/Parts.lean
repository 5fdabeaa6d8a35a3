import Rover.Proofs.Ownership.Evaluation

namespace Rover

mutual

def Expr.parts : Expr → List Expr
  | .array elements pos => .array elements pos :: partsAll elements
  | .unary op operand pos => .unary op operand pos :: operand.parts
  | .binary op left right pos => .binary op left right pos :: (left.parts ++ right.parts)
  | .call callee arguments pos => .call callee arguments pos :: (callee.parts ++ partsAll arguments)
  | .index base position pos => .index base position pos :: (base.parts ++ position.parts)
  | other => [other]

def partsAll : List Expr → List Expr
  | [] => []
  | first :: rest => first.parts ++ partsAll rest

end

def Expr.target? : Expr → Option Expr
  | .binary .assign target _ _ => some target
  | .call (.name callee _) (target :: _) _ =>
      if callee = Builtin.push.name ∨ callee = Builtin.pop.name then some target else none
  | _ => none

def Expr.targets (expr : Expr) : List Expr :=
  expr.parts.filterMap Expr.target?

/-- The slots that the search for a target goes through, from the target inward. -/
def Expr.spine : Expr → List Expr
  | .index base position pos => .index base position pos :: base.spine
  | _ => []

def Expr.slots (expr : Expr) : List Expr :=
  expr.targets.flatMap Expr.spine

def Expr.isPop : Expr → Bool
  | .call (.name callee _) _ _ => callee = Builtin.pop.name
  | _ => false

def Expr.pops (expr : Expr) : Bool :=
  expr.parts.any Expr.isPop

theorem Expr.self_mem_parts (expr : Expr) : expr ∈ expr.parts := by
  cases expr <;> exact List.mem_cons_self

theorem partsAll_eq_flatMap (exprs : List Expr) : partsAll exprs = exprs.flatMap Expr.parts := by
  induction exprs with
  | nil => rfl
  | cons first rest ih => rw [partsAll, ih, List.flatMap_cons]

theorem parts_subset_partsAll {expr : Expr} {exprs : List Expr} (member : expr ∈ exprs) :
    expr.parts ⊆ partsAll exprs := by
  rw [partsAll_eq_flatMap]
  exact fun _ part => List.mem_flatMap_of_mem member part

theorem partsAll_append (first second : List Expr) :
    partsAll (first ++ second) = partsAll first ++ partsAll second := by
  simp only [partsAll_eq_flatMap, List.flatMap_append]

theorem Expr.mem_targets {expr target : Expr} :
    target ∈ expr.targets ↔ ∃ part ∈ expr.parts, part.target? = some target :=
  List.mem_filterMap

theorem Expr.parts_array (elements : List Expr) (pos : Pos) :
    partsAll elements ⊆ (Expr.array elements pos).parts :=
  List.subset_cons_self _ _

theorem Expr.parts_unary (op : UnaryOp) (operand : Expr) (pos : Pos) :
    operand.parts ⊆ (Expr.unary op operand pos).parts :=
  List.subset_cons_self _ _

theorem Expr.parts_left (op : BinaryOp) (left right : Expr) (pos : Pos) :
    left.parts ⊆ (Expr.binary op left right pos).parts :=
  List.subset_cons_of_subset _ (List.subset_append_left _ _)

theorem Expr.parts_right (op : BinaryOp) (left right : Expr) (pos : Pos) :
    right.parts ⊆ (Expr.binary op left right pos).parts :=
  List.subset_cons_of_subset _ (List.subset_append_right _ _)

theorem Expr.parts_base (base position : Expr) (pos : Pos) :
    base.parts ⊆ (Expr.index base position pos).parts :=
  List.subset_cons_of_subset _ (List.subset_append_left _ _)

theorem Expr.parts_position (base position : Expr) (pos : Pos) :
    position.parts ⊆ (Expr.index base position pos).parts :=
  List.subset_cons_of_subset _ (List.subset_append_right _ _)

theorem Expr.parts_arguments (callee : Expr) (arguments : List Expr) (pos : Pos) :
    partsAll arguments ⊆ (Expr.call callee arguments pos).parts :=
  List.subset_cons_of_subset _ (List.subset_append_right _ _)

def Reaches (name : Text) (exprs : List Expr) : Prop :=
  ∃ target ∈ exprs.filterMap Expr.target?, target.root? = some name

theorem Reaches.mono {name : Text} {exprs others : List Expr} (reaches : Reaches name exprs)
    (subset : exprs ⊆ others) : Reaches name others := by
  obtain ⟨target, member, rooted⟩ := reaches
  exact ⟨target, List.filterMap_subset _ subset member, rooted⟩

mutual

theorem reaches_of_writes {expr : Expr} {name : Text} (written : name ∈ expr.writes) :
    Reaches name expr.parts := by
  cases expr with
  | array elements pos =>
      rw [Expr.writes] at written
      exact (reaches_of_writesAll written).mono (Expr.parts_array elements pos)
  | unary op operand pos =>
      rw [Expr.writes] at written
      exact (reaches_of_writes written).mono (Expr.parts_unary op operand pos)
  | binary op left right pos =>
      have either : op = .assign ∧ left.root? = some name ∨
          name ∈ left.writes ∨ name ∈ right.writes := by
        by_cases assigns : op = .assign
        · subst assigns
          simpa [Expr.writes, or_assoc] using written
        · rw [Expr.writes_binary assigns, List.mem_append] at written
          exact .inr written
      rcases either with ⟨rfl, rooted⟩ | inLeft | inRight
      · exact ⟨left, Expr.mem_targets.mpr ⟨_, Expr.self_mem_parts _, rfl⟩, rooted⟩
      · exact (reaches_of_writes inLeft).mono (Expr.parts_left op left right pos)
      · exact (reaches_of_writes inRight).mono (Expr.parts_right op left right pos)
  | index base position pos =>
      rw [Expr.writes, List.mem_append] at written
      rcases written with inBase | inPosition
      · exact (reaches_of_writes inBase).mono (Expr.parts_base base position pos)
      · exact (reaches_of_writes inPosition).mono (Expr.parts_position base position pos)
  | call callee arguments pos =>
      cases callee with
      | name callee calleePos =>
          rw [Expr.writes_call, List.mem_append] at written
          rcases written with own | inArguments
          · split at own
            · next changes =>
                cases arguments with
                | nil => cases own
                | cons target others =>
                    refine ⟨target, Expr.mem_targets.mpr ⟨_, Expr.self_mem_parts _, ?_⟩, ?_⟩
                    · exact if_pos changes
                    · simpa using own
            · cases own
          · exact (reaches_of_writesAll inArguments).mono (Expr.parts_arguments _ arguments pos)
      | _ => cases written
  | _ => cases written

theorem reaches_of_writesAll {exprs : List Expr} {name : Text} (written : name ∈ writesAll exprs) :
    Reaches name (partsAll exprs) := by
  cases exprs with
  | nil => cases written
  | cons first rest =>
      rw [writesAll, List.mem_append] at written
      rcases written with inFirst | inRest
      · exact (reaches_of_writes inFirst).mono (List.subset_append_left _ _)
      · exact (reaches_of_writesAll inRest).mono (List.subset_append_right _ _)

end

end Rover
