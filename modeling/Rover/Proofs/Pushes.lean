import Rover.Proofs.Locating
import Rover.Proofs.Update

/-!
Pushes onto pushes. The target of a `push` may be a `push` itself, which is done while the target is
located: the values are evaluated from the outermost call inward and appended from the innermost
outward. A `pop` of such a target takes off again what came last.
-/

namespace Rover

/-- A target under calls of `push`, listed from the outermost inward, each with the value that it
appends, the position of its name and its own. -/
def Expr.pushed (target : Expr) (calls : List (Expr × Pos × Pos)) : Expr :=
  calls.foldr
    (fun call inner => .call (.name Builtin.push.name call.2.1) [inner, call.1] call.2.2) target

def Binding.appended (binding : Binding Value) (path : List Int64) (copies : List Value) : Value :=
  binding.value.altered (Value.onElements (· ++ copies)) path

/-- The later machine has another value in one variable, and the same was written and recorded. -/
structure Machine.Sets (name : Text) (value : Value) (old new : Machine) : Prop where
  scopes : new.scopes = old.scopes.set name value
  errors : new.errors = old.errors
  events : new.events = old.events

section Pushes

variable {options : Options} {machine middle after : Machine} {name : Text}
  {binding : Binding Value}
  {path numbers : List Int64} {stamp : Stamp} {items copies : List Value} {place : Location}

theorem appended_nil (leads : binding.value.follow path = .ok (.arr stamp items)) :
    binding.appended path [] = binding.value := by
  have same : binding.value.altered (Value.onElements (· ++ [])) path =
      binding.value.altered (fun _ => .arr stamp items) path :=
    Value.altered_congr leads (congrArg (Value.arr stamp) (List.append_nil items))
  exact same.trans (Value.altered_self leads)

theorem altered_appended {change : List Value → List Value} {longer : List Value}
    (leads : binding.value.follow path = .ok (.arr stamp items))
    (changed : change (items ++ copies) = items ++ longer) :
    (binding.appended path copies).altered (Value.onElements change) path =
      binding.appended path longer := by
  rw [Binding.appended, Value.altered_altered]
  exact Value.altered_congr leads (congrArg (Value.arr stamp) changed)

structure Appended (middle after : Machine) (name : Text) (binding : Binding Value)
    (path : List Int64) (stamp : Stamp) (items copies : List Value) (place : Location) : Prop where
  leads : binding.value.follow path = .ok (.arr stamp items)
  lies : place.Lies after name ⟨binding.appended path copies, false⟩ path
    (.arr stamp (items ++ copies))
  sets : middle.Sets name (binding.appended path copies) after

theorem appended_none (lies : place.Lies middle name binding path (.arr stamp items))
    (changeable : binding.constant = false) :
    Appended middle middle name binding path stamp items [] place := by
  have same := appended_nil lies.leads
  refine ⟨lies.leads, ?_, ?_, rfl, rfl⟩
  · rw [same, List.append_nil, ← changeable]
    exact lies
  · rw [same, Chain.set_self lies.bound]

theorem Appended.sets_modifyArray
    (appended : Appended middle after name binding path stamp items copies place)
    {change : List Value → List Value} {longer : List Value}
    (changed : change (items ++ copies) = items ++ longer) (next : Stamp) (orphans : List Value) :
    middle.Sets name (binding.appended path longer)
      (Machine.modifyArray stamp change { after with next, orphans }) := by
  obtain ⟨leads, lies, sets⟩ := appended
  have scopes := Machine.scopes_modifyArray lies.sound.bound_nodup lies.bound lies.leads change
  rw [sets.scopes, Chain.set_set] at scopes
  refine ⟨?_, sets.errors, sets.events⟩
  rw [← altered_appended leads changed]
  exact scopes

theorem Appended.push (appended : Appended middle after name binding path stamp items copies place)
    (value : Value) :
    Appended middle
      (Machine.modifyArray stamp (· ++ [(value.copy after.next).1])
        { after with next := (value.copy after.next).2 })
      name binding path stamp items (copies ++ [(value.copy after.next).1]) place := by
  have changed : (items ++ copies) ++ [(value.copy after.next).1] =
      items ++ (copies ++ [(value.copy after.next).1]) := List.append_assoc _ _ _
  refine ⟨appended.leads, ?_, appended.sets_modifyArray changed _ after.orphans⟩
  have longer := appended.lies.append rfl value
  dsimp only at longer
  rw [altered_appended appended.leads changed, changed] at longer
  exact longer

theorem eq_ints_of_deepAll {values : List Value} {numbers : List Int64}
    (deep : Value.deepAll values = numbers.map .int) : values = numbers.map .int := by
  induction numbers generalizing values with
  | nil =>
      cases values with
      | nil => rfl
      | cons first rest => cases deep
  | cons number numbers ih =>
      cases values with
      | nil => cases deep
      | cons first rest =>
          obtain ⟨deepFirst, deepRest⟩ := List.cons.inj deep
          rw [ih deepRest]
          cases first <;> cases deepFirst
          rfl

theorem locate_push (options : Options) (calleePos pos : Pos) (target value : Expr) :
    locate options (.call (.name Builtin.push.name calleePos) [target, value] pos) =
      Target.push pos (locate options target) (evaluate options value) := by
  rw [locate_call, if_pos rfl]

theorem targetPush_ok (pos : Pos) {search : Eval Located} {right : Eval Value} {value : Value}
    {before state : Machine} (evaluated : right before = .ok value state)
    (located : search state = .ok (.ok place) after)
    (appended : Appended middle after name binding path stamp items copies place) :
    Target.push pos search right before = .ok (.ok place)
      (Machine.modifyArray stamp (· ++ [(value.copy after.next).1])
        { after with next := (value.copy after.next).2 }) := by
  obtain ⟨_, _, ⟨⟩, _, _, opened⟩ := array_ok .push pos located appended.lies
  unfold Target.push
  rw [bind_of_ok evaluated, bind_of_ok opened]
  rfl

-- The induction is on the calls from the outermost inward: the outermost value is evaluated first,
-- and then the other calls meet a machine with the same variables.
theorem locate_pushed {chain : Chain Value} (namePos : Pos) {indices : List (Expr × Pos)}
    (freeIndices : ∀ index ∈ indices, index.1.targets = [])
    (indexed : List.Forall₂ (fun index number => index.1.ComesTo options chain (.int number))
      indices numbers)
    (sought : chain.sought name numbers = .ok (binding, .arr stamp items))
    (changeable : binding.constant = false) {calls : List (Expr × Pos × Pos)} {values : List Value}
    (free : ∀ call ∈ calls, call.1.targets = [])
    (each : List.Forall₂ (fun call => call.1.ComesTo options chain) calls values)
    (sound : machine.Sound) (same : machine.scopes = chain) :
    ∃ outcomes middle copies place after,
      collect (evaluateEach options (calls.map (·.1) ++ indices.map (·.1))) machine =
        .ok outcomes middle ∧
      middle.scopes = chain ∧
      locate options (Expr.pushed (.indexed (.name name namePos) indices) calls) machine =
        .ok (.ok place) after ∧
      Value.deepAll copies = values.reverse ∧
      Appended middle after name binding numbers stamp items copies place := by
  induction each generalizing machine with
  | nil =>
      have numbered : List.Forall₂ (Expr.ComesTo options chain) (indices.map (·.1))
          (numbers.map .int) := by
        rwa [List.forall₂_map_left_iff, List.forall₂_map_right_iff]
      obtain ⟨outcomes, middle, collected, deep, scopes⟩ := collect_comesTo numbered same
      obtain rfl := eq_ints_of_deepAll deep
      obtain ⟨place, lies, located⟩ :=
        locate_found sound name namePos freeIndices collected (same ▸ sought)
      exact ⟨_, middle, [], place, middle, collected, scopes, located, rfl,
        appended_none lies changeable⟩
  | @cons call value calls values comes _ ih =>
      rw [List.forall_mem_cons] at free
      obtain ⟨outcome, state, evaluated, deep, scopes⟩ := comes machine same
      obtain ⟨soundState, _⟩ := evaluate_free free.1 sound evaluated
      obtain ⟨outcomes, middle, copies, place, after, collected, kept, located, deepCopies,
        appended⟩ :=
        ih free.2 soundState scopes
      refine ⟨outcome :: outcomes, middle, _, place, _, ?_, kept, ?_, ?_, appended.push outcome⟩
      · rw [List.map_cons, List.cons_append, evaluateEach, collect, bind_of_ok evaluated,
          bind_of_ok collected]
        rfl
      · exact (congrFun (locate_push options _ _ _ _) machine).trans
          (targetPush_ok _ evaluated located appended)
      · rw [Value.deepAll_eq_map, List.map_append, ← Value.deepAll_eq_map, deepCopies,
          List.reverse_cons, List.map_singleton, Value.deep_copy, deep]

/-- The value of the outermost `push` is a copy of the array, which has all values appended. -/
theorem evaluate_pushed {target : Expr} {call : Expr × Pos × Pos} {calls : List (Expr × Pos × Pos)}
    (located : locate options (target.pushed (call :: calls)) machine = .ok (.ok place) after)
    (appended : Appended middle after name binding path stamp items copies place) :
    ∃ result last, evaluate options (target.pushed (call :: calls)) machine = .ok result last ∧
      last.CopyOf (.arr stamp (items ++ copies)) result ∧
        middle.Sets name (binding.appended path copies) last := by
  let array : Value := .arr stamp (items ++ copies)
  have pushed : Target.push call.2.2 (locate options (target.pushed calls))
      (evaluate options call.1) machine = .ok (.ok place) after :=
    (congrFun (locate_push options _ _ _ _) machine).symm.trans located
  have copy := appended.lies.sound.coherent.copy (Nat.le_refl after.next) array
  have read : evaluate options (target.pushed (call :: calls)) machine =
      .ok (array.copy after.next).1 { after with next := (array.copy after.next).2 } := by
    have calledPush : evaluate options (target.pushed (call :: calls)) machine =
        pushTo options call.2.2 (locate options (target.pushed calls)) (evaluate options call.1)
          machine := congrFun (evaluate_call options _ _ _ _) machine
    rw [calledPush, pushTo, bind_of_ok pushed]
    exact bind_of_ok appended.lies.load
  exact ⟨_, _, read, ⟨copy.deep, copy.once, copy.apart⟩,
    appended.sets.scopes, appended.sets.errors, appended.sets.events⟩

theorem evaluate_pop_pushed {target : Expr} {last : Value}
    (located : locate options target machine = .ok (.ok place) after)
    (appended : Appended middle after name binding path stamp items (copies ++ [last]) place)
    (calleePos pos : Pos) :
    ∃ final, evaluate options (.call (.name Builtin.pop.name calleePos) [target] pos) machine =
        .ok last final ∧ middle.Sets name (binding.appended path copies) final := by
  have lies := appended.lies
  have held := after.array?_of_follow lies.sound lies.bound lies.leads
  have ending : (items ++ (copies ++ [last])).getLast? = some last := by simp
  have shorter : (items ++ (copies ++ [last])).dropLast = items ++ copies := by
    rw [← List.append_assoc, List.dropLast_concat]
  obtain ⟨_, _, ⟨⟩, _, _, opened⟩ := array_ok .pop pos located lies
  have popped : popFrom options pos (locate options target) machine =
      .ok last (Machine.modifyArray stamp List.dropLast
        { after with orphans := last :: after.orphans }) := by
    unfold popFrom
    rw [bind_of_ok opened]
    dsimp only
    rw [get_bind, held, Option.getD_some, ending]
    rfl
  rw [evaluate_call]
  exact ⟨_, popped, appended.sets_modifyArray shorter after.next (last :: after.orphans)⟩

end Pushes

/-- Where no array is held twice, calls of `push` onto each other append their values to the array
at the target, the innermost first, and yield a copy of it; a `pop` of them yields the value of the
outermost and leaves the others appended. Nothing else changes but by what the values write and
report, the outermost first. -/
theorem pushes_append (options : Options) {machine : Machine} (sound : machine.Sound) (name : Text)
    (namePos : Pos) {indices : List (Expr × Pos)} {numbers : List Int64}
    (indexed : List.Forall₂ (fun index number => index.1.Yields options machine (.int number))
      indices numbers)
    {binding : Binding Value} {stamp : Stamp} {items : List Value}
    (sought : machine.scopes.sought name numbers = .ok (binding, .arr stamp items))
    (changeable : binding.constant = false) {call : Expr × Pos × Pos}
    {calls : List (Expr × Pos × Pos)} {value : Value} {values : List Value}
    (evaluated : List.Forall₂ (fun each => each.1.Yields options machine)
      (call :: calls) (value :: values)) (calleePos pos : Pos) :
    let target := Expr.pushed (.indexed (.name name namePos) indices) (call :: calls)
    ∃ outcomes middle copies last,
      collect (evaluateEach options ((call :: calls).map (·.1) ++ indices.map (·.1))) machine =
        .ok outcomes middle ∧
      middle.scopes = machine.scopes ∧ Value.deepAll copies = values.reverse ∧ last.deep = value ∧
      (∃ result after, evaluate options target machine = .ok result after ∧
        after.CopyOf (.arr stamp (items ++ (copies ++ [last]))) result ∧
        middle.Sets name (binding.appended numbers (copies ++ [last])) after) ∧
      ∃ after, evaluate options (.call (.name Builtin.pop.name calleePos) [target] pos) machine =
          .ok last after ∧
        middle.Sets name (binding.appended numbers copies) after ∧
        (calls = [] → after.scopes = machine.scopes) := by
  intro target
  obtain ⟨freeIndices, indexComes⟩ : (∀ index ∈ indices, index.1.targets = []) ∧
      List.Forall₂ (fun index number => index.1.ComesTo options machine.scopes (.int number))
        indices numbers :=
    (List.forall₂_and_left _ _).mp (indexed.imp fun _ _ yields => ⟨yields.free, yields.comesTo⟩)
  obtain ⟨free, comes⟩ : (∀ each ∈ call :: calls, each.1.targets = []) ∧
      List.Forall₂ (fun each => each.1.ComesTo options machine.scopes)
        (call :: calls) (value :: values) :=
    (List.forall₂_and_left _ _).mp (evaluated.imp fun _ _ yields => ⟨yields.free, yields.comesTo⟩)
  obtain ⟨outcomes, middle, copies, place, after, collected, kept, located, deep, appended⟩ :=
    locate_pushed namePos freeIndices indexComes sought changeable free comes sound rfl
  obtain ⟨front, last, rfl, deepFront, deepLast⟩ : ∃ front last, copies = front ++ [last] ∧
      Value.deepAll front = values.reverse ∧ last.deep = value := by
    rw [List.reverse_cons, Value.deepAll_eq_map, List.map_eq_append_iff] at deep
    obtain ⟨front, ending, rfl, deepFront, deepEnding⟩ := deep
    obtain ⟨last, rfl, deepLast⟩ := List.map_eq_singleton_iff.mp deepEnding
    exact ⟨front, last, rfl, (Value.deepAll_eq_map front).trans deepFront, deepLast⟩
  obtain ⟨final, popped, sets⟩ := evaluate_pop_pushed located appended calleePos pos
  refine ⟨outcomes, middle, front, last, collected, kept, deepFront, deepLast,
    evaluate_pushed located appended, final, popped, sets, ?_⟩
  rintro rfl
  cases evaluated with
  | cons _ none =>
      cases none
      cases front with
      | cons first rest => cases deepFront
      | nil =>
          obtain ⟨found, leads⟩ := Chain.sought_ok sought
          rw [sets.scopes, appended_nil leads, kept, Chain.set_self found]

/-- A text and then the variable `a` itself are appended to its second element. -/
def selfPushes : List (Expr × Pos × Pos) :=
  [(.name (text "a") .unknown, .unknown, .unknown), (.str (text "d") .unknown, .unknown, .unknown)]

def selfPushed (count : Nat) : Expr :=
  .pushed (.indexed (.name (text "a") .unknown) secondElement) (selfPushes.take count)

def selfPopped (count : Nat) : Expr :=
  .call (.name Builtin.pop.name .unknown) [selfPushed count] .unknown

def unwatched : Options := ⟨false, 0, none, none⟩

def twoArrays : Value :=
  .arr 0 [.arr 0 [.str (text "b")], .arr 0 [.str (text "c")]]

theorem selfPushes_yield :
    List.Forall₂ (fun each => each.1.Yields unwatched (nestedMachine unwatched)) selfPushes
      [twoArrays, .str (text "d")] :=
  .cons ⟨by simp [Expr.targets, Expr.parts, Expr.target?], _, _, rfl, rfl⟩
    (.cons ⟨by simp [Expr.targets, Expr.parts, Expr.target?], _, _, rfl, rfl⟩ .nil)

/-- A text is pushed onto the second of two arrays, and then both of them. What is popped again is
the array of the two as they were before either push. -/
theorem pushes_append_self :
    ∃ machine result after last final only undone, Machine.Sound machine ∧
      evaluate unwatched (selfPushed 2) machine = .ok result after ∧
      result.deep = .arr 0 [.str (text "c"), .str (text "d"), twoArrays] ∧
      evaluate unwatched (selfPopped 2) machine = .ok last final ∧ last.deep = twoArrays ∧
      (final.scopes.find? (text "a")).map (·.value.deep) =
        some (.arr 0 [.arr 0 [.str (text "b")], .arr 0 [.str (text "c"), .str (text "d")]]) ∧
      evaluate unwatched (selfPopped 1) machine = .ok only undone ∧ only.deep = twoArrays ∧
      undone.scopes = machine.scopes := by
  let machine := nestedMachine unwatched
  have sound := nestedMachine_sound unwatched
  have index := secondElement_yields unwatched machine
  have valued := selfPushes_yield
  have sought : machine.scopes.sought (text "a") [1] = .ok (_, .arr _ [.str (text "c")]) := rfl
  obtain ⟨_, _, copies, last, _, kept, deep, deepLast, ⟨result, after, pushed, copy, _⟩,
      final, popped, sets, _⟩ :=
    pushes_append unwatched sound (text "a") .unknown index sought rfl valued .unknown .unknown
  obtain ⟨_, _, _, only, _, _, _, deepOnly, _, undone, poppedOnly, _, same⟩ :=
    pushes_append unwatched sound (text "a") .unknown index sought rfl
      (.cons (List.forall₂_cons.mp valued).1 .nil) .unknown .unknown
  obtain ⟨first, rfl⟩ : ∃ first, copies = [first] := by
    rcases copies with _ | ⟨first, _ | ⟨second, rest⟩⟩
    · cases deep
    · exact ⟨first, rfl⟩
    · cases (List.cons.inj deep).2
  have deepFirst : first.deep = .str (text "d") := (List.cons.inj deep).1
  refine ⟨machine, result, after, last, final, only, undone, sound, pushed, ?_, popped, deepLast,
    ?_, poppedOnly, deepOnly, same rfl⟩
  · rw [copy.deep, ← deepLast, ← deepFirst]
    rfl
  · rw [sets.scopes, kept, ← deepFirst]
    rfl

end Rover
