import Rover.Proofs.Arising
import Rover.Proofs.Frame
import Rover.Proofs.Places

/-!
The search for a target. The indexes of a target lead on from its variable one by one, each to a
place inside the one before, until the last is found or one of them fails. Indexes that contain no
targets themselves leave all variables as they are meanwhile.
-/

namespace Rover

def Expr.indexed (base : Expr) (indices : List (Expr × Pos)) : Expr :=
  indices.foldl (fun array index => .index array index.1 index.2) base

section Targets

variable {options : Options} {start machine middle after : Machine}

theorem evaluate_free {expr : Expr} (free : expr.targets = []) (sound : machine.Sound)
    {value : Value} (evaluated : evaluate options expr machine = .ok value after) :
    after.Sound ∧ after.scopes = machine.scopes := by
  obtain ⟨evolves, _⟩ :=
    (evaluate_computes options expr (fun _ => id) machine sound).of_ok evaluated
  refine ⟨evolves.after, evolves.scopes.eq_of_none fun name written => ?_⟩
  obtain ⟨target, member, _⟩ := reaches_of_writes written
  rw [Expr.targets] at free
  rw [free] at member
  cases member

theorem collect_cons_ok {action : Eval Value} {rest : List (Eval Value)} {values : List Value}
    (collected : collect (action :: rest) machine = .ok values after) :
    ∃ value others between, action machine = .ok value between ∧
      collect rest between = .ok others after ∧ values = value :: others := by
  rw [collect] at collected
  cases first : action machine with
  | error stop between =>
      rw [bind_of_error first] at collected
      cases collected
  | ok value between =>
      rw [bind_of_ok first] at collected
      cases second : collect rest between with
      | error stop last =>
          rw [bind_of_error second] at collected
          cases collected
      | ok others last =>
          rw [bind_of_ok second] at collected
          cases collected
          exact ⟨value, others, between, rfl, second, rfl⟩

theorem collect_free {exprs : List Expr} (free : ∀ expr ∈ exprs, expr.targets = [])
    (sound : machine.Sound) {values : List Value}
    (evaluated : collect (evaluateEach options exprs) machine = .ok values after) :
    after.Sound ∧ after.scopes = machine.scopes := by
  induction exprs generalizing machine values with
  | nil =>
      cases evaluated
      exact ⟨sound, rfl⟩
  | cons expr rest ih =>
      rw [List.forall_mem_cons] at free
      rw [evaluateEach] at evaluated
      obtain ⟨value, others, between, first, second, _⟩ := collect_cons_ok evaluated
      obtain ⟨soundBetween, scopesBetween⟩ := evaluate_free free.1 sound first
      obtain ⟨soundAfter, scopesAfter⟩ := ih free.2 soundBetween second
      exact ⟨soundAfter, scopesAfter.trans scopesBetween⟩

theorem slot_error {pos : Pos} {array : Eval Located} {index : Eval Value} {error : RuntimeError}
    (located : array start = .ok (.error error) machine) :
    Target.slot pos array index start = .ok (.error error) machine :=
  bind_of_ok located

theorem kindOf_whole {value : Value} (whole : value.Whole) :
    Machine.kindOf value machine = .ok (value.kind?.getD .nothing) machine := by
  obtain ⟨kind, known⟩ := whole.kind?
  rw [Machine.kindOf, known]
  rfl

theorem checkIndex_element (stamp : Stamp) (elements : List Value) (pos : Pos) (number : Int64) :
    checkIndex elements pos (.int number) machine =
      match (Value.arr stamp elements).element number with
      | .ok _ => .ok (.ok number.toInt.toNat) machine
      | .error fault => .ok (.error ⟨fault, pos⟩) machine := by
  unfold checkIndex Value.element
  dsimp only
  split <;> rfl

variable {name : Text} {binding : Binding Value} {path : List Int64} {part : Value}
  {location : Location}

theorem slot_ok (pos : Pos) {array : Eval Located} {index : Eval Value} {number : Int64}
    (located : array start = .ok (.ok location) machine)
    (evaluated : index machine = .ok (.int number) after)
    (lies : location.Lies after name binding path part) :
    match part.element number with
    | .error fault => part.Whole →
        Target.slot pos array index start = .ok (.error ⟨fault, pos⟩) after
    | .ok inner => ∃ place, Target.slot pos array index start = .ok (.ok place) after ∧
        place.Lies after name binding (path ++ [number]) inner := by
  unfold Target.slot
  rw [bind_of_ok located]
  dsimp only
  rw [bind_of_ok evaluated, bind_of_ok lies.load]
  cases part with
  | arr stamp elements =>
      have checked : checkIndex elements pos (.int number) after = _ :=
        checkIndex_element stamp elements pos number
      dsimp only
      cases picked : (Value.arr stamp elements).element number with
      | error fault =>
          rw [picked] at checked
          exact fun _ => bind_of_ok checked
      | ok inner =>
          rw [picked] at checked
          exact ⟨_, bind_of_ok checked, lies.inner picked⟩
  | absent => exact False.elim
  | _ => exact fun whole => bind_of_ok (kindOf_whole whole)

theorem locate_indexed_error {error : RuntimeError} {base : Expr}
    (located : locate options base start = .ok (.error error) after) (indices : List (Expr × Pos)) :
    locate options (base.indexed indices) start = .ok (.error error) after := by
  induction indices generalizing base with
  | nil => exact located
  | cons index rest ih =>
      apply ih
      rw [locate]
      exact slot_error located

-- The induction is on the indexes, for any base: each index that is taken makes the base longer and
-- the path that leads to its place, while the variable stays as it is.
/-- The indexes lead on from a place one by one, until one fails. -/
theorem locate_indexed {indices : List (Expr × Pos)}
    (free : ∀ index ∈ indices, index.1.targets = []) {base : Expr} {numbers : List Int64}
    (located : locate options base start = .ok (.ok location) machine)
    (lies : location.Lies machine name binding path part)
    (evaluated : collect (evaluateEach options (indices.map (·.1))) machine =
      .ok (numbers.map .int) middle) :
    match part.follow numbers with
    | .error fault => part.Whole → ∃ pos between, between.scopes = machine.scopes ∧
        locate options (base.indexed indices) start = .ok (.error ⟨fault, pos⟩) between
    | .ok inner => ∃ place, place.Lies middle name binding (path ++ numbers) inner ∧
        locate options (base.indexed indices) start = .ok (.ok place) middle := by
  induction indices generalizing base machine location path part numbers with
  | nil =>
      cases numbers with
      | nil =>
          cases evaluated
          exact ⟨location, (List.append_nil path).symm ▸ lies, located⟩
      | cons number numbers => cases evaluated
  | cons index rest ih =>
      rw [List.forall_mem_cons] at free
      rw [List.map_cons, evaluateEach] at evaluated
      obtain ⟨value, others, between, first, second, same⟩ := collect_cons_ok evaluated
      cases numbers with
      | nil => cases same
      | cons number numbers =>
          cases same
          obtain ⟨sound, scopes⟩ := evaluate_free free.1 lies.sound first
          have onward := slot_ok index.2 located first (lies.later sound scopes)
          rw [← locate] at onward
          rw [Value.follow_cons]
          cases picked : part.element number with
          | error fault =>
              rw [picked] at onward
              exact fun whole =>
                ⟨index.2, between, scopes, locate_indexed_error (onward whole) rest⟩
          | ok inner =>
              rw [picked] at onward
              obtain ⟨place, found, inside⟩ := onward
              have followed : part.follow [number] = .ok inner := by
                rw [Value.follow_cons, picked]
                rfl
              have deeper := ih free.2 found inside second
              rw [scopes, List.append_assoc] at deeper
              change match inner.follow numbers with
                | .error fault => part.Whole → _
                | .ok inner => _
              cases leads : inner.follow numbers with
              | error fault =>
                  rw [leads] at deeper
                  exact fun whole => deeper (whole.follow followed)
              | ok last =>
                  rw [leads] at deeper
                  exact deeper

def Chain.sought (chain : Chain Value) (name : Text) (path : List Int64) :
    Except Fault (Binding Value × Value) :=
  match chain.find? name with
  | none => .error (.undefined name)
  | some binding => (binding.value.follow path).map (binding, ·)

theorem Chain.sought_ok {chain : Chain Value} {name : Text} {path : List Int64}
    {binding : Binding Value} {part : Value}
    (found : chain.sought name path = .ok (binding, part)) :
    chain.find? name = some binding ∧ binding.value.follow path = .ok part := by
  unfold sought at found
  cases bound : chain.find? name with
  | none =>
      rw [bound] at found
      cases found
  | some own =>
      rw [bound] at found
      dsimp only at found
      cases leads : own.value.follow path with
      | error fault =>
          rw [leads] at found
          cases found
      | ok inner =>
          rw [leads] at found
          cases found
          exact ⟨rfl, leads⟩

/-- What the search for a target comes to. -/
def Resolves (options : Options) (target : Expr) (state middle : Machine) (name : Text)
    (path : List Int64) : Except Fault (Binding Value × Value) → Prop
  | .error fault => fault ≠ .target ∧ ∃ pos between, between.scopes = state.scopes ∧
      locate options target state = .ok (.error ⟨fault, pos⟩) between
  | .ok (binding, part) => part.Whole ∧ ∃ place, Location.Lies middle name binding path part place ∧
      locate options target state = .ok (.ok place) middle

theorem locate_name (name : Text) (namePos : Pos) :
    locate options (.name name namePos) machine =
      match machine.scopes.find? name with
      | none => .ok (.error ⟨.undefined name, namePos⟩) machine
      | some binding => .ok (.ok ⟨.named name, binding.constant, name⟩) machine := by
  rw [locate, Target.named, get_bind]
  cases machine.scopes.find? name <;> rfl

/-- A target is found where its path leads to from the variable. -/
theorem locate_found (sound : machine.Sound) (name : Text) (namePos : Pos)
    {indices : List (Expr × Pos)} (free : ∀ index ∈ indices, index.1.targets = [])
    {numbers : List Int64}
    (evaluated : collect (evaluateEach options (indices.map (·.1))) machine =
      .ok (numbers.map .int) middle) {binding : Binding Value} {part : Value}
    (sought : machine.scopes.sought name numbers = .ok (binding, part)) :
    ∃ place, place.Lies middle name binding numbers part ∧
      locate options (.indexed (.name name namePos) indices) machine = .ok (.ok place) middle := by
  obtain ⟨bound, leads⟩ := Chain.sought_ok sought
  have here : locate options (.name name namePos) machine = _ := locate_name name namePos
  rw [bound] at here
  have onward := locate_indexed free here ⟨sound, bound, rfl, .named⟩ evaluated
  rw [leads] at onward
  exact onward

theorem locate_resolves (sound : machine.Sound) (whole : machine.Whole) (name : Text)
    (namePos : Pos)
    {indices : List (Expr × Pos)} (free : ∀ index ∈ indices, index.1.targets = [])
    {numbers : List Int64}
    (evaluated : collect (evaluateEach options (indices.map (·.1))) machine =
      .ok (numbers.map .int) middle) :
    Resolves options (.indexed (.name name namePos) indices) machine middle name numbers
      (machine.scopes.sought name numbers) := by
  have here : locate options (.name name namePos) machine = _ := locate_name name namePos
  unfold Chain.sought
  cases bound : machine.scopes.find? name with
  | none =>
      rw [bound] at here
      exact ⟨nofun, namePos, machine, rfl, locate_indexed_error here indices⟩
  | some binding =>
      rw [bound] at here
      have onward := locate_indexed free here ⟨sound, bound, rfl, .named⟩ evaluated
      dsimp only
      cases leads : binding.value.follow numbers with
      | error fault =>
          rw [leads] at onward
          exact ⟨Value.follow_ne_target leads, onward (whole.binding bound)⟩
      | ok part =>
          rw [leads] at onward
          exact ⟨(whole.binding bound).follow leads, onward⟩

end Targets

end Rover
