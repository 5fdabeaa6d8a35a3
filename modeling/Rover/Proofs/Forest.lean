import Rover.Proofs.Timeline.Ownership

/-!
Arrays are values. At every moment of a run the arrays in variables form a forest, in which each
array is reached in one way, and a value that was just computed shares no array with it.
-/

namespace Rover

namespace Value

def at? : Value → List Nat → Option Value
  | value, [] => some value
  | .arr _ elements, index :: path => (elements[index]?).bind (·.at? path)
  | _, _ :: _ => none

theorem at?_cons {value inner : Value} {index : Nat} {path : List Nat}
    (found : value.at? (index :: path) = some inner) :
    ∃ stamp elements element, value = .arr stamp elements ∧ elements[index]? = some element ∧
      element.at? path = some inner := by
  cases value with
  | arr stamp elements =>
      rw [at?, Option.bind_eq_some_iff] at found
      obtain ⟨element, here, below⟩ := found
      exact ⟨stamp, elements, element, rfl, here, below⟩
  | _ => cases found

theorem at?_append (value : Value) (path rest : List Nat) :
    value.at? (path ++ rest) = (value.at? path).bind (·.at? rest) := by
  induction path generalizing value with
  | nil => simp [at?]
  | cons index path ih =>
      cases value with
      | arr stamp elements =>
          rw [List.cons_append, at?, at?]
          cases elements[index]? with
          | none => rfl
          | some element => exact ih element
      | _ => rfl

theorem at?_stamps {value inner : Value} {path : List Nat} (found : value.at? path = some inner) :
    inner.stamps.Sublist value.stamps := by
  induction path generalizing value with
  | nil =>
      rw [at?] at found
      cases found
      exact List.Sublist.refl _
  | cons index path ih =>
      obtain ⟨outer, elements, element, rfl, here, below⟩ := at?_cons found
      rw [stamps_arr]
      exact ((ih below).trans (stamps_sublist (List.mem_of_getElem? here))).cons outer

theorem mem_stamps_of_at? {value : Value} {path : List Nat} {stamp : Stamp} {elements : List Value}
    (found : value.at? path = some (.arr stamp elements)) : stamp ∈ value.stamps :=
  (at?_stamps found).subset (by rw [stamps_arr]; exact List.mem_cons_self)

theorem index_unique {elements : List Value} (once : (stampsAll elements).Nodup)
    {first second : Nat} {left right : Value} {stamp : Stamp}
    (atFirst : elements[first]? = some left) (atSecond : elements[second]? = some right)
    (inLeft : stamp ∈ left.stamps) (inRight : stamp ∈ right.stamps) : first = second := by
  induction elements generalizing first second with
  | nil => cases atFirst
  | cons element rest ih =>
      rw [stampsAll_cons, List.nodup_append] at once
      obtain ⟨_, restOnce, apart⟩ := once
      cases first with
      | zero =>
          cases second with
          | zero => rfl
          | succ second =>
              cases atFirst
              rw [List.getElem?_cons_succ] at atSecond
              have inRest := mem_stampsAll.mpr ⟨right, List.mem_of_getElem? atSecond, inRight⟩
              exact absurd rfl (apart stamp inLeft stamp inRest)
      | succ first =>
          cases second with
          | zero =>
              cases atSecond
              rw [List.getElem?_cons_succ] at atFirst
              have inRest := mem_stampsAll.mpr ⟨left, List.mem_of_getElem? atFirst, inLeft⟩
              exact absurd rfl (apart stamp inRight stamp inRest)
          | succ second => exact congrArg Nat.succ (ih restOnce atFirst atSecond)

theorem path_unique {value : Value} (once : value.stamps.Nodup) {stamp : Stamp}
    {elements items : List Value} {path other : List Nat}
    (first : value.at? path = some (.arr stamp elements))
    (second : value.at? other = some (.arr stamp items)) : path = other := by
  induction path generalizing value other with
  | nil =>
      cases other with
      | nil => rfl
      | cons index other =>
          obtain ⟨outer, inside, element, rfl, here, below⟩ := at?_cons second
          rw [at?] at first
          cases first
          rw [stamps_arr, List.nodup_cons] at once
          exact absurd (mem_stampsAll.mpr
            ⟨element, List.mem_of_getElem? here, mem_stamps_of_at? below⟩) once.1
  | cons index path ih =>
      obtain ⟨outer, inside, element, rfl, here, below⟩ := at?_cons first
      rw [stamps_arr, List.nodup_cons] at once
      cases other with
      | nil =>
          rw [at?] at second
          cases second
          exact absurd (mem_stampsAll.mpr
            ⟨element, List.mem_of_getElem? here, mem_stamps_of_at? below⟩) once.1
      | cons index' other =>
          obtain ⟨_, _, element', ⟨⟩, here', below'⟩ := at?_cons second
          have same := index_unique once.2 here here' (mem_stamps_of_at? below)
            (mem_stamps_of_at? below')
          subst same
          rw [here] at here'
          cases here'
          have elementOnce := (stamps_sublist (List.mem_of_getElem? here)).nodup once.2
          rw [ih elementOnce below below']

end Value

theorem Scope.name_unique {scope : Scope Value}
    (once : (Value.stampsAll (scope.map (·.2.value))).Nodup) {name other : Text}
    {first second : Binding Value} {stamp : Stamp} (found : scope.find? name = some first)
    (foundOther : scope.find? other = some second) (inFirst : stamp ∈ first.value.stamps)
    (inSecond : stamp ∈ second.value.stamps) : name = other := by
  induction scope with
  | nil => cases found
  | cons entry rest ih =>
      obtain ⟨own, binding⟩ := entry
      simp only [List.map_cons, Value.stampsAll_cons, List.nodup_append] at once
      simp only [Scope.find?] at found foundOther
      obtain ⟨_, restOnce, apart⟩ := once
      split at found
      · next same =>
          cases found
          split at foundOther
          · next sameOther => exact same.symm.trans sameOther
          · have inRest := Scope.mem_stamps_of_find? foundOther inSecond
            exact absurd rfl (apart stamp inFirst stamp inRest)
      · split at foundOther
        · cases foundOther
          have inRest := Scope.mem_stamps_of_find? found inFirst
          exact absurd rfl (apart stamp inSecond stamp inRest)
        · exact ih restOnce found foundOther

theorem Chain.mem_values_of_binding? {chain : Chain Value} {depth : Nat} {name : Text}
    {binding : Binding Value} (found : chain.binding? depth name = some binding) :
    binding.value ∈ chain.values := by
  induction chain with
  | nil => cases found
  | cons scope outer ih =>
      rw [Chain.values_cons, List.mem_append]
      rw [Chain.binding?] at found
      split at found
      · exact .inl (Scope.mem_values_of_find? found)
      · exact .inr (ih found)

theorem Chain.mem_stamps_of_binding? {chain : Chain Value} {depth : Nat} {name : Text}
    {binding : Binding Value} {stamp : Stamp} (found : chain.binding? depth name = some binding)
    (held : stamp ∈ binding.value.stamps) : stamp ∈ Value.stampsAll chain.values :=
  Value.mem_stampsAll.mpr ⟨_, Chain.mem_values_of_binding? found, held⟩

theorem Chain.binding_unique {chain : Chain Value} (once : (Value.stampsAll chain.values).Nodup)
    {depth other : Nat} {name otherName : Text} {first second : Binding Value} {stamp : Stamp}
    (found : chain.binding? depth name = some first)
    (foundOther : chain.binding? other otherName = some second)
    (inFirst : stamp ∈ first.value.stamps) (inSecond : stamp ∈ second.value.stamps) :
    depth = other ∧ name = otherName := by
  induction chain with
  | nil => cases found
  | cons scope outer ih =>
      rw [Chain.values_cons, Value.stampsAll_append, List.nodup_append] at once
      obtain ⟨scopeOnce, outerOnce, apart⟩ := once
      rw [Chain.binding?] at found foundOther
      split at found
      · next here =>
          split at foundOther
          · next hereToo =>
              exact ⟨here.trans hereToo.symm,
                Scope.name_unique scopeOnce found foundOther inFirst inSecond⟩
          · have inScope := Scope.mem_stamps_of_find? found inFirst
            have inOuter := Chain.mem_stamps_of_binding? foundOther inSecond
            exact absurd rfl (apart stamp inScope stamp inOuter)
      · split at foundOther
        · have inScope := Scope.mem_stamps_of_find? foundOther inSecond
          have inOuter := Chain.mem_stamps_of_binding? found inFirst
          exact absurd rfl (apart stamp inScope stamp inOuter)
        · exact ih outerOnce found foundOther

/-- A binding, by the depth of its scope and its name, and a path of indexes from its value on. -/
structure Route where
  depth : Nat
  name : Text
  path : List Nat
  deriving DecidableEq, Repr

namespace Machine

def at? (machine : Machine) (route : Route) : Option Value :=
  (machine.scopes.binding? route.depth route.name).bind fun binding =>
    binding.value.at? route.path

/-- No array is reached by two routes, and none contains itself. -/
structure Forest (machine : Machine) : Prop where
  unique : ∀ {first second : Route} {stamp : Stamp} {elements items : List Value},
    machine.at? first = some (.arr stamp elements) → machine.at? second = some (.arr stamp items) →
      first = second
  acyclic : ∀ {route : Route} {stamp : Stamp} {elements : List Value},
    machine.at? route = some (.arr stamp elements) → stamp ∉ Value.stampsAll elements

variable {machine : Machine}

theorem at?_sublist {route : Route} {value : Value} (found : machine.at? route = some value) :
    value.stamps.Sublist machine.bound := by
  obtain ⟨binding, bound, below⟩ := Option.bind_eq_some_iff.mp found
  exact (Value.at?_stamps below).trans
    (Value.stamps_sublist (Chain.mem_values_of_binding? bound))

theorem Sound.forest (sound : machine.Sound) : machine.Forest := by
  have once := sound.bound_nodup
  constructor
  · intro first second stamp elements items found foundToo
    obtain ⟨binding, bound, below⟩ := Option.bind_eq_some_iff.mp found
    obtain ⟨other, boundToo, belowToo⟩ := Option.bind_eq_some_iff.mp foundToo
    have sameBinding := Chain.binding_unique once bound boundToo (Value.mem_stamps_of_at? below)
      (Value.mem_stamps_of_at? belowToo)
    obtain ⟨depth, name, path⟩ := first
    obtain ⟨depth', name', path'⟩ := second
    obtain ⟨sameDepth, sameName⟩ := sameBinding
    dsimp only at sameDepth sameName bound boundToo below belowToo
    subst sameDepth sameName
    rw [bound] at boundToo
    cases boundToo
    have bindingOnce :=
      (Value.stamps_sublist (Chain.mem_values_of_binding? bound)).nodup once
    rw [Value.path_unique bindingOnce below belowToo]
  · intro route stamp elements found
    have inside := (at?_sublist found).nodup once
    rw [Value.stamps_arr, List.nodup_cons] at inside
    exact inside.1

end Machine

/-- At every moment the arrays in variables are a forest, apart from the value that was just
computed. -/
theorem arrays_apart (jobs : List Job) {machine : Machine} (sound : machine.Sound)
    (single : machine.scopes.length = 1) {moment : Moment}
    (passed : moment ∈ timeline jobs machine) :
    moment.machine.Forest ∧
      ∀ value, moment.act = .evaluated value → ∀ stamp ∈ value.stamps, ∀ route elements,
        moment.machine.at? route ≠ some (.arr stamp elements) := by
  obtain ⟨final, course⟩ := timeline_course jobs sound single
  obtain ⟨earlier, follows⟩ := course.follows_of_mem passed
  refine ⟨follows.sound.forest, ?_⟩
  intro value computed stamp held route elements found
  have bound := (Machine.at?_sublist found).subset
    (show stamp ∈ (Value.arr stamp elements).stamps by
      rw [Value.stamps_arr]
      exact List.mem_cons_self)
  exact follows.apart value computed stamp held bound

def popIntoVariable : Job :=
  ⟨⟨false, 0, none, none⟩, 1, ⟨[
    .define (text "a") .unknown (.array [.array [] .unknown] .unknown) false .unknown,
    .define (text "b") .unknown
      (.call (.name (text "pop") .unknown) [.name (text "a") .unknown] .unknown) false .unknown],
    .unknown⟩⟩

theorem arrays_apart_after_pop :
    ∃ moment ∈ timeline [popIntoVariable] Machine.new, moment.act = .evaluated (.arr 0 []) ∧
      moment.machine.Forest ∧
        ∀ route elements, moment.machine.at? route ≠ some (.arr 0 elements) := by
  have passed := List.mem_of_getElem?
    (show (timeline [popIntoVariable] Machine.new)[5]? = some _ from rfl)
  obtain ⟨forest, apart⟩ := arrays_apart [popIntoVariable] Machine.new_sound rfl passed
  have held : 0 ∈ (Value.arr 0 []).stamps := by
    rw [Value.stamps_arr]
    exact List.mem_cons_self
  exact ⟨_, passed, rfl, forest, apart (.arr 0 []) rfl 0 held⟩

end Rover
