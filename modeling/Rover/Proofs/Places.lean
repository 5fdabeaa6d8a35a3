import Rover.Proofs.Paths

/-!
Places inside a variable. A location that was found along a path of index numbers is read and
changed as the value at the end of the path: what was there before is the variable's value along the
path, and what is put there changes the variable's value along the path and no other binding.
-/

namespace Rover

theorem Scope.define_self {scope : Scope Value} {name : Text} {binding : Binding Value}
    (found : scope.find? name = some binding) : scope.define name binding = scope := by
  induction scope with
  | nil => cases found
  | cons entry rest ih =>
      rw [Scope.find?] at found
      rw [Scope.define]
      split at found
      · next same =>
          cases found
          rw [if_pos same]
      · next differs => rw [if_neg differs, ih found]

theorem Scope.define_define (scope : Scope Value) (name : Text) (first second : Binding Value) :
    (scope.define name first).define name second = scope.define name second := by
  induction scope with
  | nil => simp [Scope.define]
  | cons entry rest ih =>
      by_cases same : entry.1 = name
      · simp [Scope.define, same]
      · simp [Scope.define, same, ih]

theorem Chain.set_set (chain : Chain Value) (name : Text) (first second : Value) :
    (chain.set name first).set name second = chain.set name second := by
  induction chain with
  | nil => rfl
  | cons scope outer ih =>
      rw [Chain.set, Chain.set]
      cases inScope : scope.find? name with
      | some binding =>
          dsimp only
          rw [Chain.set, Scope.find?_define, if_pos rfl]
          exact congrArg (· :: outer) (Scope.define_define scope name _ _)
      | none =>
          dsimp only
          rw [Chain.set, inScope, ih]

theorem Chain.set_self {chain : Chain Value} {name : Text} {binding : Binding Value}
    (found : chain.find? name = some binding) : chain.set name binding.value = chain := by
  induction chain with
  | nil => rfl
  | cons scope outer ih =>
      rw [Chain.find?] at found
      rw [Chain.set]
      cases inScope : scope.find? name with
      | some inner =>
          rw [inScope] at found
          cases found
          exact congrArg (· :: outer) (Scope.define_self inScope)
      | none =>
          rw [inScope] at found
          exact congrArg (scope :: ·) (ih found)

theorem Chain.find?_set {chain : Chain Value} {name : Text} {binding : Binding Value}
    (found : chain.find? name = some binding) (value : Value) :
    (chain.set name value).find? name = some { binding with value } := by
  induction chain with
  | nil => cases found
  | cons scope outer ih =>
      rw [Chain.find?] at found
      rw [Chain.set]
      cases inScope : scope.find? name with
      | some inner =>
          rw [inScope] at found
          cases found
          dsimp only
          rw [Chain.find?, Scope.find?_define, if_pos rfl]
      | none =>
          rw [inScope] at found
          dsimp only
          rw [Chain.find?, inScope]
          exact ih found

section Modified

variable {name : Text} {binding : Binding Value} {stamp : Stamp}
  {change : List Value → List Value}

theorem Scope.modified_of_notMem {scope : Scope Value}
    (missing : stamp ∉ Value.stampsAll (scope.map (·.2.value))) :
    scope.modified stamp change = scope := by
  induction scope with
  | nil => rfl
  | cons entry rest ih =>
      rw [List.map_cons, Value.stampsAll_cons, List.mem_append, not_or] at missing
      have kept := ih missing.2
      rw [Scope.modified] at kept ⊢
      rw [List.map_cons, Value.modify_of_notMem change missing.1, kept]

theorem Chain.modified_of_notMem {chain : Chain Value}
    (missing : stamp ∉ Value.stampsAll chain.values) :
    chain.map (Scope.modified stamp change) = chain := by
  induction chain with
  | nil => rfl
  | cons scope outer ih =>
      rw [Chain.values_cons, Value.stampsAll_append, List.mem_append, not_or] at missing
      rw [List.map_cons, Scope.modified_of_notMem missing.1, ih missing.2]

theorem Scope.modified_eq_define {scope : Scope Value}
    (once : (Value.stampsAll (scope.map (·.2.value))).Nodup)
    (found : scope.find? name = some binding) (held : stamp ∈ binding.value.stamps) :
    scope.modified stamp change =
      scope.define name { binding with value := binding.value.modify stamp change } := by
  induction scope with
  | nil => cases found
  | cons entry rest ih =>
      obtain ⟨own, old⟩ := entry
      rw [List.map_cons, Value.stampsAll_cons, List.nodup_append] at once
      obtain ⟨_, restOnce, apart⟩ := once
      rw [Scope.find?] at found
      rw [Scope.define, Scope.modified, List.map_cons]
      split at found
      · next same =>
          cases found
          have missing : stamp ∉ Value.stampsAll (rest.map (·.2.value)) := fun inRest =>
            apart stamp held stamp inRest rfl
          rw [if_pos same]
          exact congrArg _ (Scope.modified_of_notMem missing)
      · next differs =>
          have missing : stamp ∉ old.value.stamps := fun inOld =>
            apart stamp inOld stamp (Scope.mem_stamps_of_find? found held) rfl
          rw [if_neg differs, Value.modify_of_notMem change missing]
          exact congrArg _ (ih restOnce found)

theorem Chain.modified_eq_set {chain : Chain Value} (once : (Value.stampsAll chain.values).Nodup)
    (found : chain.find? name = some binding) (held : stamp ∈ binding.value.stamps) :
    chain.map (Scope.modified stamp change) = chain.set name
      (binding.value.modify stamp change) := by
  induction chain with
  | nil => cases found
  | cons scope outer ih =>
      rw [Chain.values_cons, Value.stampsAll_append, List.nodup_append] at once
      obtain ⟨scopeOnce, outerOnce, apart⟩ := once
      rw [Chain.find?] at found
      rw [Chain.set, List.map_cons]
      cases inScope : scope.find? name with
      | some inner =>
          rw [inScope] at found
          cases found
          have missing : stamp ∉ Value.stampsAll (Chain.values outer) := fun inOuter =>
            apart stamp (Scope.mem_stamps_of_find? inScope held) stamp inOuter rfl
          rw [Scope.modified_eq_define scopeOnce inScope held, Chain.modified_of_notMem missing]
      | none =>
          rw [inScope] at found
          have missing : stamp ∉ Value.stampsAll (scope.map (·.2.value)) := fun inScope =>
            apart stamp inScope stamp (Chain.mem_stamps_of_find? found held) rfl
          rw [Scope.modified_of_notMem missing, ih outerOnce found]

end Modified

/-- The change of an array by its stamp is the change of one variable along the path to the
array. -/
theorem Machine.scopes_modifyArray {machine : Machine} (once : machine.bound.Nodup) {name : Text}
    {binding : Binding Value} (found : machine.scopes.find? name = some binding)
    {path : List Int64} {stamp : Stamp} {elements : List Value}
    (leads : binding.value.follow path = .ok (.arr stamp elements))
    (change : List Value → List Value) :
    (machine.modifyArray stamp change).scopes =
      machine.scopes.set name (binding.value.altered (Value.onElements change) path) := by
  have inValue := (Value.stamps_sublist (Chain.mem_values_of_find? found)).nodup once
  rw [← Value.modify_of_follow inValue leads change]
  exact Chain.modified_eq_set once found (Value.mem_stamps_of_follow leads)

theorem Machine.array?_of_follow {machine : Machine} (sound : machine.Sound) {name : Text}
    {binding : Binding Value} (found : machine.scopes.find? name = some binding)
    {path : List Int64} {stamp : Stamp} {elements : List Value}
    (leads : binding.value.follow path = .ok (.arr stamp elements)) :
    machine.array? stamp = some elements :=
  Value.findIn?_of_follow sound.once
    (List.mem_append_left _ (Chain.mem_values_of_find? found)) leads

/-- The later machine differs from the earlier one in the value of one variable, which now is the
given one, and in what no program can see. -/
structure Machine.Changed (name : Text) (value : Value) (old new : Machine) : Prop where
  scopes : ∃ inner, inner.deep = value ∧ new.scopes = old.scopes.set name inner
  errors : new.errors = old.errors
  events : new.events = old.events

theorem exists_ok_of_leads {α : Type} {action : Eval α} {machine : Machine}
    {done : α → Machine → Prop} (leads : Leads action machine done fun _ _ => False) :
    ∃ value after, action machine = .ok value after ∧ done value after := by
  unfold Leads at leads
  cases result : action machine with
  | ok value after =>
      rw [result] at leads
      exact ⟨value, after, rfl, leads⟩
  | error stop after =>
      rw [result] at leads
      exact leads.elim

namespace Location

/-- The place to which a path leads from a binding: the variable, or a slot of an array in its
value. -/
inductive Denotes (name : Text) (binding : Binding Value) : List Int64 → Location → Prop
  | named : Denotes name binding [] ⟨.named name, binding.constant, name⟩
  | slot {path : List Int64} {stamp : Stamp} {elements : List Value} (number : Int64) :
      binding.value.follow path = .ok (.arr stamp elements) →
        Denotes name binding (path ++ [number])
          ⟨.slot stamp number.toInt.toNat, binding.constant, name⟩

/-- A place that a path leads to from the nearest binding of a name, and the part of its value that
is there. -/
structure Lies (machine : Machine) (name : Text) (binding : Binding Value) (path : List Int64)
    (part : Value) (location : Location) : Prop where
  sound : machine.Sound
  bound : machine.scopes.find? name = some binding
  leads : binding.value.follow path = .ok part
  denotes : Denotes name binding path location

variable {machine : Machine} {name : Text} {binding : Binding Value} {path : List Int64}
  {location : Location} {part : Value}

theorem Denotes.constant (denotes : Denotes name binding path location) :
    location.constant = binding.constant := by
  cases denotes <;> rfl

theorem Denotes.root (denotes : Denotes name binding path location) : location.root = name := by
  cases denotes <;> rfl

theorem Denotes.altered (denotes : Denotes name binding path location) (change : Value → Value) :
    Denotes name { binding with value := binding.value.altered change path } path location := by
  cases denotes with
  | named => exact .named
  | @slot init stamp elements number outer =>
      have kept : (binding.value.altered change (init ++ [number])).follow init =
          .ok (.arr stamp (elements.modify number.toInt.toNat (Value.altered change []))) := by
        rw [Value.altered_append]
        exact Value.follow_altered outer
      exact .slot number kept

theorem element_of_follow {stamp : Stamp} {elements : List Value} {number : Int64}
    (outer : binding.value.follow path = .ok (.arr stamp elements))
    (leads : binding.value.follow (path ++ [number]) = .ok part) :
    elements[number.toInt.toNat]? = some part := by
  rw [Value.follow_append, outer] at leads
  obtain ⟨_, _, inner, ⟨⟩, _, here, ⟨⟩⟩ := Value.follow_cons_ok leads
  exact here

section Lies

variable (lies : Lies machine name binding path part location)

include lies

theorem Lies.later {after : Machine} (sound : after.Sound) (same : after.scopes = machine.scopes) :
    Lies after name binding path part location :=
  ⟨sound, same ▸ lies.bound, lies.leads, lies.denotes⟩

theorem Lies.load : location.load machine = .ok part machine := by
  obtain ⟨sound, bound, leads, denotes⟩ := lies
  cases denotes with
  | named =>
      cases leads
      change EStateM.Result.ok (((machine.scopes.find? name).map (·.value)).getD .nothing)
        machine = _
      rw [bound]
      rfl
  | slot number outer =>
      have held := machine.array?_of_follow sound bound outer
      have here := element_of_follow outer leads
      unfold Location.load
      rw [get_bind]
      dsimp only
      rw [held, Option.getD_some, here]
      rfl

/-- Storing a value at a place changes the variable along the path, and nothing else but stamps and
orphans. -/
theorem Lies.store (free : binding.constant = false) (value : Value) :
    ∃ after, location.store value machine = .ok (.ok ()) after ∧
      machine.Changed name (binding.value.deep.altered (fun _ => value.deep) path) after := by
  obtain ⟨sound, bound, leads, denotes⟩ := lies
  have deep : (binding.value.altered (fun _ => (value.copy machine.next).1) path).deep =
      binding.value.deep.altered (fun _ => value.deep) path :=
    Value.deep_altered (fun _ => Value.deep_copy machine.next value) path binding.value
  suffices stored : Leads (location.store value) machine
      (fun result after => result = .ok () ∧
        machine.Changed name (binding.value.deep.altered (fun _ => value.deep) path) after)
      fun _ _ => False by
    obtain ⟨_, after, result, rfl, changed⟩ := exists_ok_of_leads stored
    exact ⟨after, result, changed⟩
  cases denotes with
  | named =>
      rw [leads_store_named, bound]
      dsimp only
      rw [free, if_neg Bool.false_ne_true]
      exact ⟨rfl, ⟨_, deep, rfl⟩, rfl, rfl⟩
  | @slot init stamp elements number outer =>
      have held := machine.array?_of_follow sound bound outer
      have here := element_of_follow outer leads
      rw [leads_store_slot, held, Option.getD_some, here]
      refine ⟨rfl, ⟨_, deep, ?_⟩, rfl, rfl⟩
      rw [Value.altered_append, Value.altered_congr outer (Value.altered_slot number _)]
      exact Machine.scopes_modifyArray sound.bound_nodup bound outer _

end Lies

section Array

variable {stamp : Stamp} {elements : List Value}

theorem Lies.modify (lies : Lies machine name binding path (.arr stamp elements) location)
    (change deepChange : List Value → List Value)
    (commutes : ∀ items, Value.deepAll (change items) = deepChange (Value.deepAll items))
    (next : Stamp) (orphans : List Value) :
    machine.Changed name (binding.value.deep.altered
        (fun _ => .arr 0 (deepChange (Value.deepAll elements))) path)
      (Machine.modifyArray stamp change { machine with next, orphans }) := by
  obtain ⟨sound, bound, leads, denotes⟩ := lies
  have deepLeads : binding.value.deep.follow path = .ok (.arr 0 (Value.deepAll elements)) := by
    rw [Value.deep_follow, leads]
    rfl
  have deepCommutes : ∀ value : Value,
      (value.onElements change).deep = value.deep.onElements deepChange := by
    intro value
    cases value with
    | arr own items => exact congrArg (Value.arr 0) (commutes items)
    | _ => rfl
  refine ⟨⟨binding.value.altered (Value.onElements change) path, ?_, ?_⟩, rfl, rfl⟩
  · rw [Value.deep_altered deepCommutes]
    exact Value.altered_congr deepLeads rfl
  · exact Machine.scopes_modifyArray sound.bound_nodup bound leads change

theorem Lies.inner (lies : Lies machine name binding path (.arr stamp elements) location)
    {number : Int64} {element : Value}
    (picked : (Value.arr stamp elements).element number = .ok element) :
    Lies machine name binding (path ++ [number]) element
      ⟨.slot stamp number.toInt.toNat, location.constant, location.root⟩ := by
  obtain ⟨sound, bound, leads, denotes⟩ := lies
  refine ⟨sound, bound, ?_, ?_⟩
  · rw [Value.follow_append, leads]
    change (Value.arr stamp elements).follow [number] = _
    rw [Value.follow_cons, picked]
    rfl
  · rw [denotes.constant, denotes.root]
    exact .slot number leads

theorem Lies.append (lies : Lies machine name binding path (.arr stamp elements) location)
    (free : binding.constant = false) (value : Value) :
    Lies (Machine.modifyArray stamp (· ++ [(value.copy machine.next).1])
        { machine with next := (value.copy machine.next).2 }) name
      ⟨binding.value.altered (Value.onElements (· ++ [(value.copy machine.next).1])) path,
        binding.constant⟩
      path (.arr stamp (elements ++ [(value.copy machine.next).1])) location := by
  obtain ⟨sound, bound, leads, denotes⟩ := lies
  have held := Value.mem_stamps_of_follow leads
  have writable : machine.scopes.Holds stamp fun _ flag => True ∧ flag = false :=
    (Chain.holds_of_find? sound.bound_nodup bound held).mono
      fun _ _ here => ⟨trivial, here.2.trans free⟩
  have evolves := (Machine.Evolves.refl (fun _ => True) sound).modifyArray []
    (.inl (Chain.mem_stamps_of_find? bound held)) writable
    (machine.array?_of_follow sound bound leads) (Value.le_copy_next machine.next value)
    (Value.copy_stamps_nodup machine.next value) (fun _ => Value.mem_copy_stamps.mp)
    (Value.addsOnly_push (value.copy machine.next).1) (by simp) (by simp)
  refine ⟨evolves.after, ?_, Value.follow_altered leads, denotes.altered _⟩
  have scopes := Machine.scopes_modifyArray sound.bound_nodup bound leads
    (· ++ [(value.copy machine.next).1])
  exact (congrArg (Chain.find? · name) scopes).trans (Chain.find?_set bound _)

end Array

end Location

end Rover
