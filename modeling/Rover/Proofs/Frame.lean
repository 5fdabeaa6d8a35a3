import Rover.Proofs.Outline
import Rover.Proofs.Parts
import Rover.Proofs.Timeline.Ownership

/-!
What an expression leaves alone. Of all the bindings in all the scopes, an evaluation changes only
those that a name finds which is the root of a target in the expression.
-/

namespace Rover

/-- The depth of the nearest scope that binds a name. -/
def Chain.nearest? : Chain Value → Text → Option Nat
  | [], _ => none
  | scope :: outer, name =>
      if (scope.find? name).isSome then some outer.length else nearest? outer name

theorem Chain.nearest?_lt {chain : Chain Value} {name : Text} {depth : Nat}
    (nearest : chain.nearest? name = some depth) : depth < chain.length := by
  induction chain with
  | nil => cases nearest
  | cons scope outer ih =>
      rw [nearest?] at nearest
      split at nearest
      · cases nearest
        exact Nat.lt_succ_self _
      · exact Nat.lt_succ_of_lt (ih nearest)

/-- The nearest binding is the one that is found. -/
theorem Chain.find?_eq_nearest (chain : Chain Value) (name : Text) :
    chain.find? name = (chain.nearest? name).bind (chain.binding? · name) := by
  induction chain with
  | nil => rfl
  | cons scope outer ih =>
      rw [Chain.find?, nearest?]
      cases found : scope.find? name with
      | some binding => simp [binding?, found]
      | none =>
          dsimp only [Option.isSome_none]
          rw [if_neg Bool.false_ne_true, ih]
          cases nearest : nearest? outer name with
          | none => rfl
          | some depth => exact (binding?_cons (nearest?_lt nearest)).symm

section Evolved

variable {next : Stamp} {may : Text → Prop}

theorem Scope.Evolved.find?_kept {old new : Scope Value} (evolved : Scope.Evolved next may old new)
    (name : Text) :
    new.find? name = old.find? name ∨ may name ∧ (old.find? name).isSome := by
  cases found : new.find? name with
  | none => exact .inl ((evolved.find?_eq_none_iff name).mp found).symm
  | some binding =>
      obtain ⟨before, foundBefore, change⟩ := evolved.find? found
      rw [foundBefore]
      rcases change.kept with rfl | ⟨granted, _⟩
      · exact .inl rfl
      · exact .inr ⟨granted, rfl⟩

theorem Chain.Evolved.binding?_kept {old new : Chain Value}
    (evolved : Chain.Evolved next may old new) (depth : Nat) (name : Text) :
    new.binding? depth name = old.binding? depth name ∨
      may name ∧ old.nearest? name = some depth := by
  induction evolved with
  | nil => exact .inl rfl
  | @cons _ oldScope newScope _ _ head tail ih =>
      rw [Chain.binding?, Chain.binding?, tail.length_eq, Chain.nearest?]
      split
      · next here =>
          rcases head.find?_kept name with same | ⟨granted, found⟩
          · exact .inl same
          · exact .inr ⟨granted, by rw [if_pos found, here]⟩
      · rcases ih with same | ⟨⟨granted, missing⟩, nearest⟩
        · exact .inl same
        · exact .inr ⟨granted, by simp [missing, nearest]⟩

theorem Scope.Evolved.eq_of_none {old new : Scope Value} (evolved : Scope.Evolved next may old new)
    (none : ∀ name, ¬may name) : new = old := by
  induction evolved with
  | nil => rfl
  | cons head tail ih =>
      rw [ih fun name granted => none name granted.1]
      rcases head.kept with rfl | ⟨granted, _⟩
      · rfl
      · exact absurd granted (none _)

theorem Chain.Evolved.eq_of_none {old new : Chain Value} (evolved : Chain.Evolved next may old new)
    (none : ∀ name, ¬may name) : new = old := by
  induction evolved with
  | nil => rfl
  | cons head tail ih =>
      rw [head.eq_of_none none, ih fun name granted => none name granted.1]

end Evolved

/-- The machines in which expressions are evaluated: at the moments of a run, when no orphans are
left of the expression before, and when `printf` has written something. -/
inductive Machine.Reachable : Machine → Prop
  | passed {jobs : List Job} {start : Machine} {moment : Moment} :
      start.Sound → start.scopes.length = 1 → moment ∈ timeline jobs start →
        Reachable moment.machine
  | cleared {machine : Machine} : Reachable machine → Reachable { machine with orphans := [] }
  | written {machine : Machine} (events : Array Event) :
      Reachable machine → Reachable { machine with events }

theorem Machine.Reachable.sound {machine : Machine} (reachable : machine.Reachable) :
    machine.Sound := by
  induction reachable with
  | passed sound single passed =>
      obtain ⟨final, course⟩ := timeline_course _ sound single
      obtain ⟨earlier, follows⟩ := course.follows_of_mem passed
      exact follows.sound
  | cleared _ sound => exact sound.clear
  | written _ _ sound => exact ⟨sound.once, sound.below⟩

/-- However an evaluation ends, the names and flags of all scopes stay, and so does every binding
that is not found for the root of a target in the expression. -/
theorem evaluation_frame (options : Options) (expr : Expr) {machine : Machine}
    (reachable : machine.Reachable) :
    (reached (evaluate options expr machine)).scopes.outline = machine.scopes.outline ∧
    (∀ depth name,
      (reached (evaluate options expr machine)).scopes.binding? depth name =
          machine.scopes.binding? depth name ∨
        (∃ target ∈ expr.targets, target.root? = some name) ∧
          machine.scopes.nearest? name = some depth ∧
            machine.scopes.find? name = machine.scopes.binding? depth name) ∧
    (expr.targets = [] → (reached (evaluate options expr machine)).scopes = machine.scopes) := by
  have evolves : machine.Evolves (· ∈ expr.writes) (reached (evaluate options expr machine)) := by
    have computes := evaluate_computes options expr (fun _ => id) machine reachable.sound
    exact leads_reached.mp (Leads.mono computes (fun _ _ reached => reached.1) fun _ _ => id)
  refine ⟨leads_reached.mp (outline_preserved.evaluate options expr machine), ?_, ?_⟩
  · intro depth name
    rcases evolves.scopes.binding?_kept depth name with same | ⟨written, nearest⟩
    · exact .inl same
    · refine .inr ⟨reaches_of_writes written, nearest, ?_⟩
      rw [Chain.find?_eq_nearest, nearest, Option.bind_some]
  · intro none
    apply evolves.scopes.eq_of_none
    intro name written
    obtain ⟨target, member, _⟩ := reaches_of_writes written
    rw [Expr.targets] at none
    rw [none] at member
    cases member

def boundTwice : Job :=
  ⟨⟨false, 0, none, none⟩, 1, ⟨[
    .define (text "a") .unknown (.array [.str (text "b") .unknown] .unknown) false .unknown,
    .block [
      .define (text "a") .unknown (.array [.str (text "c") .unknown] .unknown) false .unknown]
      .unknown], .unknown⟩⟩

/-- The outer array stays when something is pushed to the inner one. -/
theorem evaluation_frame_shadowed :
    ∃ machine, Machine.Reachable machine ∧
      (reached (evaluate ⟨false, 0, none, none⟩
        (.call (.name (text "push") .unknown)
          [.name (text "a") .unknown, .str (text "d") .unknown] .unknown)
        machine)).scopes.binding? 0 (text "a") = some ⟨.arr 0 [.str (text "b")], false⟩ := by
  have passed := List.mem_of_getElem?
    (show (timeline [boundTwice] Machine.new)[7]? = some _ from rfl)
  have reachable := Machine.Reachable.passed Machine.new_sound rfl passed
  obtain ⟨_, kept, _⟩ := evaluation_frame ⟨false, 0, none, none⟩
    (.call (.name (text "push") .unknown)
      [.name (text "a") .unknown, .str (text "d") .unknown] .unknown) reachable
  rcases kept 0 (text "a") with same | ⟨_, nearest, _⟩
  · exact ⟨_, reachable, same⟩
  · cases nearest

end Rover
