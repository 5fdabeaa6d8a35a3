import Rover.Proofs.Targets

/-!
Updates in place. An assignment, a `push` or a `pop` either reports an error and leaves every
variable as it was, or changes one variable: its value becomes the one that a pure function makes of
its old value along the path that the indexes of the target spell.
-/

namespace Rover

/-- An update, by the variable's name and flag and by the deep value that is at the target: it
yields a value and leaves one at the target. -/
abbrev Update := Text → Bool → Value → Except Fault (Value × Value)

namespace Update

def assign (value : Value) : Update := fun name constant _ =>
  if constant then .error (.constant name) else .ok (value, value)

def elements (builtin : Builtin) (name : Text) (constant : Bool) : Value → Except Fault (List Value)
  | .arr _ elements => if constant then .error (.constant name) else .ok elements
  | other => .error (.arrayArgument builtin (other.kind?.getD .nothing))

def ofArray (builtin : Builtin) (change : List Value → Value × Value) : Update :=
  fun name constant part => (elements builtin name constant part).map change

def push (value : Value) : Update :=
  ofArray .push fun elements => (.arr 0 (elements ++ [value]), .arr 0 (elements ++ [value]))

def pop : Update :=
  ofArray .pop fun elements => (elements.getLast?.getD .nothing, .arr 0 elements.dropLast)

/-- What an update yields, and the deep value of the variable afterwards. -/
def apply (update : Update) (chain : Chain Value) (name : Text) (path : List Int64) :
    Except Fault (Value × Value) := do
  let (binding, part) ← chain.sought name path
  let (yielded, new) ← update name binding.constant part.deep
  return (yielded, binding.value.deep.altered (fun _ => new) path)

variable {chain : Chain Value} {name : Text} {path : List Int64}

theorem apply_of_error (update : Update) {fault : Fault}
    (failed : chain.sought name path = .error fault) :
    update.apply chain name path = .error fault := by
  rw [apply, failed]
  rfl

theorem apply_of_ok (update : Update) {binding : Binding Value} {part : Value}
    (sought : chain.sought name path = .ok (binding, part)) :
    update.apply chain name path = (update name binding.constant part.deep).map fun done =>
      (done.1, binding.value.deep.altered (fun _ => done.2) path) := by
  rw [apply, sought]
  change (update name binding.constant part.deep).bind _ = _
  cases update name binding.constant part.deep <;> rfl

end Update

/-- A run of an update does what the update says. The error of an update is reported and all scopes
stay as they are; otherwise one binding gets another value. -/
def Performs (options : Options) (state middle : Machine) (name : Text)
    (result : EStateM.Result Stop Machine Value) : Except Fault (Value × Value) → Prop
  | .error fault => ∃ pos between, result = Machine.report options ⟨fault, pos⟩ between ∧
      (reached result).scopes = state.scopes
  | .ok (yielded, value) => ∃ outcome after, result = .ok outcome after ∧ outcome.deep = yielded ∧
      middle.Changed name value after

section Performs

variable {options : Options} {target : Expr} {before state middle : Machine} {name : Text}
  {path : List Int64} {binding : Binding Value} {part value : Value} {right : Eval Value}

theorem reached_report_scopes (options : Options) (error : RuntimeError) (machine : Machine) :
    (reached (Machine.report options error machine)).scopes = machine.scopes := by
  have leads : Leads (Machine.report options error) machine
      (fun _ after => after.scopes = machine.scopes)
      (fun _ after => after.scopes = machine.scopes) := by
    unfold Machine.report
    rw [leads_bind, leads_modify]
    split
    · rfl
    · obtain ⟨events, wrote, _⟩ := write_result options.diagnostics
        (text "runtime error: " ++ error.shown ++ text "\n")
        { machine with errors := machine.errors.push error }
      rw [leads_bind, leads_iff_of_ok wrote]
      rfl
  exact leads_reached.mp leads

theorem performs_error {fault : Fault} {pos : Pos} {between : Machine}
    {result : EStateM.Result Stop Machine Value}
    (ends : result = Machine.report options ⟨fault, pos⟩ between)
    (scopes : between.scopes = state.scopes) :
    Performs options state middle name result (.error fault) := by
  refine ⟨pos, between, ends, ?_⟩
  rw [ends, reached_report_scopes, scopes]

theorem assign_performs
    (resolves : Resolves options target state middle name path (state.scopes.sought name path))
    (scopes : middle.scopes = state.scopes) (evaluated : right before = .ok value state)
    (pos : Pos) :
    Performs options state middle name (assign options pos (locate options target) right before)
      ((Update.assign value.deep).apply state.scopes name path) := by
  unfold Rover.assign
  rw [bind_of_ok evaluated]
  cases sought : state.scopes.sought name path with
  | error fault =>
      rw [sought] at resolves
      obtain ⟨_, errorPos, between, same, located⟩ := resolves
      rw [Update.apply_of_error _ sought, bind_of_ok located]
      exact performs_error rfl same
  | ok found =>
      obtain ⟨binding, part⟩ := found
      rw [sought] at resolves
      obtain ⟨_, place, lies, located⟩ := resolves
      rw [Update.apply_of_ok _ sought, Update.assign, bind_of_ok located]
      dsimp only
      rw [lies.denotes.constant, lies.denotes.root]
      cases constant : binding.constant with
      | true => exact performs_error rfl scopes
      | false =>
          obtain ⟨after, stored, changed⟩ := lies.store constant value
          rw [if_neg Bool.false_ne_true, if_neg Bool.false_ne_true, bind_of_ok stored]
          exact ⟨value, after, rfl, rfl, changed⟩

theorem array_error {builtin : Builtin} {pos : Pos} {search : Eval Located} {error : RuntimeError}
    (located : search state = .ok (.error error) middle) (own : error.fault ≠ .target) :
    Target.array builtin pos search state = .ok (.error error) middle := by
  obtain ⟨fault, errorPos⟩ := error
  unfold Target.array
  rw [bind_of_ok located]
  cases fault with
  | target => exact absurd rfl own
  | _ => rfl

theorem array_ok (builtin : Builtin) (pos : Pos) {search : Eval Located} {location : Location}
    (located : search state = .ok (.ok location) middle)
    (lies : location.Lies middle name binding path part) :
    match Update.elements builtin name binding.constant part.deep with
    | .error fault => part.Whole →
        Target.array builtin pos search state = .ok (.error ⟨fault, pos⟩) middle
    | .ok elements => ∃ stamp items, part = .arr stamp items ∧ Value.deepAll items = elements ∧
        binding.constant = false ∧
        Target.array builtin pos search state = .ok (.ok (location, stamp)) middle := by
  unfold Target.array
  rw [bind_of_ok located]
  dsimp only
  rw [bind_of_ok lies.load]
  cases part with
  | arr stamp items =>
      dsimp only [Value.deep, Update.elements]
      rw [lies.denotes.constant, lies.denotes.root]
      cases constant : binding.constant with
      | true => exact fun _ => rfl
      | false => exact ⟨stamp, items, rfl, rfl, rfl, rfl⟩
  | absent => exact False.elim
  | _ => exact fun whole => bind_of_ok (kindOf_whole whole)

theorem array_performs {builtin : Builtin} {pos : Pos} {change : List Value → Value × Value}
    {next : Except RuntimeError (Location × Stamp) → Eval Value}
    (resolves : Resolves options target state middle name path (state.scopes.sought name path))
    (scopes : middle.scopes = state.scopes)
    (reports : ∀ error, next (.error error) = Machine.report options error)
    (goesOn : ∀ binding place stamp items,
      Location.Lies middle name binding path (.arr stamp items) place → binding.constant = false →
        Performs options state middle name (next (.ok (place, stamp)) middle)
          (.ok ((change (Value.deepAll items)).1,
            binding.value.deep.altered (fun _ => (change (Value.deepAll items)).2) path))) :
    Performs options state middle name
      ((Target.array builtin pos (locate options target) >>= next) state)
      ((Update.ofArray builtin change).apply state.scopes name path) := by
  cases sought : state.scopes.sought name path with
  | error fault =>
      rw [sought] at resolves
      obtain ⟨own, errorPos, between, same, located⟩ := resolves
      rw [Update.apply_of_error _ sought, bind_of_ok (array_error located own), reports]
      exact performs_error rfl same
  | ok found =>
      obtain ⟨binding, part⟩ := found
      rw [sought] at resolves
      obtain ⟨whole, place, lies, located⟩ := resolves
      have opened := array_ok builtin pos located lies
      rw [Update.apply_of_ok _ sought, Update.ofArray]
      cases elements : Update.elements builtin name binding.constant part.deep with
      | error fault =>
          rw [elements] at opened
          rw [bind_of_ok (opened whole), reports]
          exact performs_error rfl scopes
      | ok elements =>
          rw [elements] at opened
          obtain ⟨stamp, items, rfl, rfl, free, opened⟩ := opened
          rw [bind_of_ok opened]
          exact goesOn binding place stamp items lies free

theorem pushTo_of_ok (pos : Pos) (search : Eval Located)
    (evaluated : right before = .ok value state) :
    pushTo options pos search right before =
      (do
        match ← Target.array .push pos search with
        | .error error => Machine.report options error
        | .ok (location, stamp) =>
            let copied ← Machine.copy value
            modify (Machine.modifyArray stamp (· ++ [copied]))
            Machine.copy (← location.load) : Eval Value) state := by
  have pushes : Target.push pos search right before = _ := bind_of_ok evaluated
  cases opened : Target.array .push pos search state with
  | error stop after =>
      rw [bind_of_error opened] at pushes ⊢
      exact bind_of_error pushes
  | ok found after =>
      rw [bind_of_ok opened] at pushes ⊢
      cases found with
      | error error => exact bind_of_ok pushes
      | ok pair => exact bind_of_ok pushes

theorem push_performs
    (resolves : Resolves options target state middle name path (state.scopes.sought name path))
    (scopes : middle.scopes = state.scopes) (evaluated : right before = .ok value state)
    (pos : Pos) :
    Performs options state middle name (pushTo options pos (locate options target) right before)
      ((Update.push value.deep).apply state.scopes name path) := by
  rw [pushTo_of_ok pos (locate options target) evaluated]
  refine array_performs resolves scopes (fun _ => rfl) fun binding place stamp items lies free => ?_
  have longer := lies.append free value
  have commutes (values : List Value) :
      Value.deepAll (values ++ [(value.copy middle.next).1]) =
        Value.deepAll values ++ [value.deep] := by
    simp only [Value.deepAll_eq_map, List.map_append, List.map_cons, List.map_nil, Value.deep_copy]
  have changed := lies.modify _ (· ++ [value.deep]) commutes
    (value.copy middle.next).2 middle.orphans
  refine ⟨_, _, bind_of_ok longer.load, ?_, changed.scopes, changed.errors, changed.events⟩
  exact (Value.deep_copy _ (.arr stamp (items ++ [(value.copy middle.next).1]))).trans
    (congrArg (Value.arr 0) (commutes items))

theorem pop_performs
    (resolves : Resolves options target state middle name path (state.scopes.sought name path))
    (scopes : middle.scopes = state.scopes) (pos : Pos) :
    Performs options state middle name (popFrom options pos (locate options target) state)
      (Update.pop.apply state.scopes name path) := by
  refine array_performs resolves scopes (fun _ => rfl) fun binding place stamp items lies free => ?_
  have held := middle.array?_of_follow lies.sound lies.bound lies.leads
  have yielded : (Value.deepAll items).getLast? = items.getLast?.map Value.deep := by
    rw [Value.deepAll_eq_map, List.getLast?_map]
  dsimp only
  rw [get_bind, held, Option.getD_some]
  cases ending : items.getLast? with
  | none =>
      have empty := List.getLast?_eq_none_iff.mp ending
      subst empty
      refine ⟨.nothing, middle, rfl, rfl, ⟨binding.value, ?_, ?_⟩, rfl, rfl⟩
      · have deepLeads : binding.value.deep.follow path = .ok (.arr 0 []) := by
          rw [Value.deep_follow, lies.leads]
          rfl
        exact (Value.altered_self deepLeads).symm
      · exact (Chain.set_self lies.bound).symm
  | some last =>
      have commutes (values : List Value) :
          Value.deepAll values.dropLast = (Value.deepAll values).dropLast := by
        rw [Value.deepAll_eq_map, Value.deepAll_eq_map, List.map_dropLast]
      refine ⟨last, _, rfl, ?_,
        lies.modify List.dropLast List.dropLast commutes middle.next (last :: middle.orphans)⟩
      rw [yielded, ending]
      rfl

end Performs

/-- An update of a target whose indexes change nothing and are integers reports an error and leaves
all variables as they are after its right side, or changes one of them as the pure update does. -/
theorem updates_in_place (options : Options) {state middle : Machine} (arises : state.Arises)
    (name : Text) (namePos : Pos) {indices : List (Expr × Pos)}
    (free : ∀ index ∈ indices, index.1.targets = []) {numbers : List Int64}
    (evaluated : collect (evaluateEach options (indices.map (·.1))) state =
      .ok (numbers.map .int) middle) (calleePos pos : Pos) :
    let target := Expr.indexed (.name name namePos) indices
    middle.scopes = state.scopes ∧
    (∀ before right value, evaluate options right before = .ok value state →
      Performs options state middle name
          (evaluate options (.binary .assign target right pos) before)
          ((Update.assign value.deep).apply state.scopes name numbers) ∧
        Performs options state middle name
          (evaluate options (.call (.name Builtin.push.name calleePos) [target, right] pos) before)
          ((Update.push value.deep).apply state.scopes name numbers)) ∧
    Performs options state middle name
      (evaluate options (.call (.name Builtin.pop.name calleePos) [target] pos) state)
      (Update.pop.apply state.scopes name numbers) := by
  intro target
  have resolves := locate_resolves arises.sound arises.whole name namePos free evaluated
  have scopes : middle.scopes = state.scopes := by
    refine (collect_free ?_ arises.sound evaluated).2
    simpa using free
  refine ⟨scopes, fun before right value first => ⟨?_, ?_⟩, ?_⟩
  · rw [evaluate]
    exact assign_performs resolves scopes first pos
  · rw [evaluate_call]
    exact push_performs resolves scopes first pos
  · rw [evaluate_call]
    exact pop_performs resolves scopes pos

def nestedVariable : Stmt :=
  .define (text "a") .unknown
    (.array [.array [.str (text "b") .unknown] .unknown, .array [.str (text "c") .unknown] .unknown]
      .unknown) false .unknown

def secondSlot : List (Expr × Pos) :=
  [(.int (text "1") .unknown, .unknown), (.int (text "0") .unknown, .unknown)]

/-- The array of both is put into that slot, as it was before. -/
theorem updates_in_place_self :
    ∃ before after inner outcome, Machine.Arises before ∧
      evaluate ⟨false, 0, none, none⟩
        (.binary .assign (.indexed (.name (text "a") .unknown) secondSlot)
          (.name (text "a") .unknown) .unknown) before = .ok outcome after ∧
      after.scopes = before.scopes.set (text "a") inner ∧
      inner.deep = .arr 0 [.arr 0 [.str (text "b")],
        .arr 0 [.arr 0 [.arr 0 [.str (text "b")], .arr 0 [.str (text "c")]]]] := by
  let options : Options := ⟨false, 0, none, none⟩
  let before := reached (execute options 1 nestedVariable Machine.new)
  let state := reached (evaluate options (.name (text "a") .unknown) before)
  have began : before.Arises :=
    .executed options 1 (.fresh Machine.new_sound Machine.new_whole rfl)
      ⟨⟨trivial, trivial⟩, ⟨trivial, trivial⟩, trivial⟩
  have arises : state.Arises := .evaluated options began trivial
  have read : evaluate options (.name (text "a") .unknown) before = .ok _ state := rfl
  have free : ∀ index ∈ secondSlot, index.1.targets = [] := by
    simp [secondSlot, Expr.targets, Expr.parts, Expr.target?]
  have one : Reading.int64? (text "1") = some 1 := by decide +kernel
  have zero : Reading.int64? (text "0") = some 0 := by decide +kernel
  have evaluated : collect (evaluateEach options (secondSlot.map (·.1))) state =
      .ok ([1, 0].map .int) state := by
    simp only [secondSlot, List.map_cons, List.map_nil, evaluateEach, evaluate, one, zero]
    rfl
  obtain ⟨_, updates, _⟩ :=
    updates_in_place options arises (text "a") .unknown free evaluated .unknown .unknown
  obtain ⟨outcome, after, ended, _, changed⟩ := (updates before _ _ read).1
  obtain ⟨inner, deep, scopes⟩ := changed.scopes
  exact ⟨before, after, inner, outcome, began, ended, scopes, deep⟩

end Rover
