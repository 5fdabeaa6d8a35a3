import Rover.Proofs.Observation
import Rover.Proofs.Update

/-!
Reading and locating. A variable under indexes can be read, which copies at every index, or located,
which copies nothing. In a strict run both come to the same: what is read is a copy of what is at
the place, and where one fails the other fails with the same error.
-/

namespace Rover

theorem next_preserved : Preserved fun old new => old.next ≤ new.next where
  refl _ := Nat.le_refl _
  trans := Nat.le_trans
  event _ _ := Nat.le_refl _
  error _ _ := Nat.le_refl _
  next _ _ later := later
  orphans _ _ := Nat.le_refl _
  array _ _ _ := Nat.le_refl _
  set _ _ _ := Nat.le_refl _

section Locating

variable {options : Options} {machine here there after : Machine} {chain : Chain Value}
  {location : Location} {loaded value : Value}

theorem next_le_of_ok {expr : Expr} (evaluated : evaluate options expr machine = .ok value after) :
    machine.next ≤ after.next :=
  (next_preserved.evaluate options expr machine).of_ok evaluated

/-- Each stamp in a variable means one array, and it was given out before. -/
structure Machine.Coherent (machine : Machine) : Prop where
  means : ∀ {value indexes stamp elements}, value ∈ machine.scopes.values →
    value.at? indexes = some (.arr stamp elements) →
      Value.findIn? stamp machine.scopes.values = some elements
  given : ∀ stamp ∈ machine.bound, stamp < machine.next

theorem Machine.Sound.coherent (sound : machine.Sound) : machine.Coherent where
  means held found := Value.findIn?_of_at? sound.bound_nodup held found
  given _ := sound.bound_lt

/-- The value has the elements of the original at every depth, and shares no array with a variable
or within itself. -/
structure Machine.CopyOf (machine : Machine) (original value : Value) : Prop where
  deep : value.deep = original.deep
  once : value.stamps.Nodup
  apart : ∀ stamp ∈ value.stamps, stamp ∉ machine.bound

theorem Machine.Coherent.copy (coherent : machine.Coherent) (later : machine.next ≤ after.next)
    (original : Value) : machine.CopyOf original (original.copy after.next).1 where
  deep := Value.deep_copy after.next original
  once := Value.copy_stamps_nodup after.next original
  apart stamp member held := by
    have fresh := (Value.mem_copy_stamps.mp member).1
    exact Nat.not_lt.mpr (Nat.le_trans later fresh) (coherent.given stamp held)

/-- Over the variables the place holds the value, which occurs in one of them. -/
structure Location.Shows (chain : Chain Value) (location : Location) (loaded : Value) : Prop where
  occurs : ∃ value ∈ chain.values, ∃ indexes, value.at? indexes = some loaded
  loads : ∀ machine : Machine, machine.scopes = chain → location.load machine = .ok loaded machine

theorem shows_named {name : Text} {binding : Binding Value}
    (found : chain.find? name = some binding) :
    Location.Shows chain ⟨.named name, binding.constant, name⟩ binding.value where
  occurs := ⟨binding.value, Chain.mem_values_of_find? found, [], by rw [Value.at?]⟩
  loads machine same := by
    change EStateM.Result.ok (((machine.scopes.find? name).map (·.value)).getD .nothing) machine = _
    rw [same, found]
    rfl

theorem Location.Shows.slot {stamp : Stamp} {elements : List Value}
    (coherent : machine.Coherent) (base : location.Shows machine.scopes (.arr stamp elements))
    {position : Nat} {element : Value} (picked : elements[position]? = some element) :
    Location.Shows machine.scopes ⟨.slot stamp position, location.constant, location.root⟩
      element := by
  obtain ⟨value, held, indexes, occurs⟩ := base.occurs
  refine ⟨⟨value, held, indexes ++ [position], ?_⟩, fun other same => ?_⟩
  · rw [Value.at?_append, occurs, Option.bind_some, Value.at?, picked, Option.bind_some, Value.at?]
  · have found : other.array? stamp = some elements := by
      unfold Machine.array?
      rw [same]
      exact Value.findIn?_append_left (coherent.means held occurs) _
    unfold Location.load
    rw [get_bind]
    dsimp only
    rw [found, Option.getD_some, picked]
    rfl

/-- Reading and locating end in the same way. -/
inductive Meets (machine : Machine) : EStateM.Result Stop Machine Value →
    EStateM.Result Stop Machine Located → Prop
  | found {location : Location} {loaded value : Value} {here there : Machine} :
      location.Shows machine.scopes loaded → machine.CopyOf loaded value →
        here.scopes = machine.scopes → machine.next ≤ here.next → there.scopes = machine.scopes →
          Meets machine (.ok value here) (.ok (.ok location) there)
  | failed {error : RuntimeError} {here there : Machine} :
      Meets machine (.error (.error error) here) (.ok (.error error) there)
  | crashed {cause : Crash} {here there : Machine} :
      Meets machine (.error (.crash cause) here) (.error (.crash cause) there)

theorem report_strict (strict : options.strict = true) (error : RuntimeError) (machine : Machine) :
    ∃ after, Machine.report options error machine = .error (.error error) after := by
  refine ⟨{ machine with errors := machine.errors.push error }, ?_⟩
  unfold Machine.report
  rw [strict]
  rfl

theorem meets_report (strict : options.strict = true) (error : RuntimeError) :
    Meets machine (Machine.report options error here) (.ok (.error error) there) := by
  obtain ⟨after, ended⟩ := report_strict strict error here
  rw [ended]
  exact .failed

theorem checkIndex_ends (elements : List Value) (pos : Pos) (index : Value) :
    (∃ position element, elements[position]? = some element ∧
        checkIndex elements pos index = pure (.ok position)) ∨
      (∃ error, checkIndex elements pos index = pure (.error error)) ∨
        ∃ cause, checkIndex elements pos index = throw (.crash cause) := by
  cases index with
  | absent => exact .inr (.inr ⟨.absentValue, rfl⟩)
  | int number =>
      unfold checkIndex
      dsimp only
      split
      · next inside =>
          have within : number.toInt.toNat < elements.length := by omega
          exact .inl ⟨_, _, List.getElem?_eq_getElem within, rfl⟩
      · exact .inr (.inl ⟨_, rfl⟩)
  | _ => exact .inr (.inl ⟨_, rfl⟩)

theorem meets_name (strict : options.strict = true) (coherent : machine.Coherent) (name : Text)
    (pos : Pos) :
    Meets machine (evaluate options (.name name pos) machine)
      (locate options (.name name pos) machine) := by
  rw [evaluate, readVariable, locate_name, get_bind]
  cases found : machine.scopes.find? name with
  | none => exact meets_report strict _
  | some binding =>
      exact .found (shows_named found) (coherent.copy (Nat.le_refl _) binding.value) rfl
        (Value.le_copy_next machine.next binding.value) rfl

/-- One more index, of which reading looks at a copy of the array and locating at the array
itself. -/
theorem meets_index (strict : options.strict = true) (coherent : machine.Coherent)
    {base index : Expr}
    (meets : Meets machine (evaluate options base machine) (locate options base machine))
    (free : index.targets = []) (indexed : evaluate options index machine = .ok value after)
    (pos : Pos) :
    Meets machine (evaluate options (.index base index pos) machine)
      (locate options (.index base index pos) machine) := by
  have comes := comesTo_of_ok free indexed
  rw [evaluate, locate]
  unfold readElement Target.slot
  generalize read : evaluate options base machine = reading at meets
  generalize located : locate options base machine = locating at meets
  cases meets with
  | failed =>
      rw [bind_of_error read, bind_of_ok located]
      exact .failed
  | crashed =>
      rw [bind_of_error read, bind_of_error located]
      exact .crashed
  | @found location loaded copied here there shows copy hereSame later thereSame =>
      obtain ⟨second, afterThere, evaluatedThere, deepThere, scopesThere⟩ := comes there thereSame
      rw [bind_of_ok read, bind_of_ok located]
      dsimp only
      rw [bind_of_ok evaluatedThere, bind_of_ok (shows.loads afterThere scopesThere)]
      rcases Value.Like.cases copy.deep with
        ⟨own, items, stamp, elements, rfl, rfl, each⟩ | ⟨unlike, rfl⟩
      · obtain ⟨first, afterHere, evaluatedHere, deepHere, scopesHere⟩ := comes here hereSame
        have checks : checkIndex items pos first = checkIndex elements pos second := by
          rw [← checkIndex_deep items, each, deepHere, ← deepThere, checkIndex_deep]
        dsimp only
        rw [bind_of_ok evaluatedHere, checks]
        rcases checkIndex_ends elements pos second with
          ⟨position, element, picked, ends⟩ | ⟨error, ends⟩ | ⟨cause, ends⟩
        · rw [ends]
          have alike := each.getElem? position
          rw [picked, Option.getD_some] at alike
          have grown := Nat.le_trans later (next_le_of_ok evaluatedHere)
          have again := coherent.copy grown (items[position]?.getD .nothing)
          refine .found (shows.slot coherent picked)
            ⟨again.deep.trans alike, again.once, again.apart⟩
            scopesHere (Nat.le_trans grown (Value.le_copy_next _ _)) scopesThere
        · rw [ends]
          exact meets_report strict error
        · rw [ends]
          exact .crashed
      · cases loaded with
        | arr stamp elements => exact absurd rfl (unlike stamp elements)
        | absent => exact .crashed
        | _ => exact meets_report strict _

-- The induction is on the indexes, for any base on which both already meet.
theorem meets_indexed (strict : options.strict = true) (coherent : machine.Coherent)
    {indices : List (Expr × Pos)} (free : ∀ index ∈ indices, index.1.targets = [])
    (evaluated : ∀ index ∈ indices, ∃ value after,
      evaluate options index.1 machine = .ok value after)
    {base : Expr}
    (meets : Meets machine (evaluate options base machine) (locate options base machine)) :
    Meets machine (evaluate options (base.indexed indices) machine)
      (locate options (base.indexed indices) machine) := by
  induction indices generalizing base with
  | nil => exact meets
  | cons index rest ih =>
      rw [List.forall_mem_cons] at free evaluated
      obtain ⟨value, after, indexed⟩ := evaluated.1
      exact ih free.2 evaluated.2 (meets_index strict coherent meets free.1 indexed index.2)

end Locating

/-- In a strict run, a variable under indexes that change nothing and do not fail is read exactly if
it is located, and then what is read is a copy of what is at the place; and it is read with an error
exactly if it is located with the same error. -/
theorem reading_meets_locating (options : Options) (strict : options.strict = true)
    {machine : Machine}
    (coherent : machine.Coherent) (name : Text) (namePos : Pos) {indices : List (Expr × Pos)}
    (free : ∀ index ∈ indices, index.1.targets = [])
    (evaluated : ∀ index ∈ indices, ∃ value after,
      evaluate options index.1 machine = .ok value after) :
    let target := Expr.indexed (.name name namePos) indices
    (∀ value after, evaluate options target machine = .ok value after →
      ∃ location middle loaded, locate options target machine = .ok (.ok location) middle ∧
        location.load middle = .ok loaded middle ∧ machine.CopyOf loaded value ∧
          after.scopes = machine.scopes ∧ middle.scopes = machine.scopes) ∧
    (∀ location middle, locate options target machine = .ok (.ok location) middle →
      ∃ value after, evaluate options target machine = .ok value after) ∧
    ∀ error, (∃ after, evaluate options target machine = .error (.error error) after) ↔
      ∃ middle, locate options target machine = .ok (.error error) middle := by
  intro target
  have meets : Meets machine (evaluate options target machine) (locate options target machine) :=
    meets_indexed strict coherent free evaluated (meets_name strict coherent name namePos)
  generalize evaluate options target machine = reading at meets ⊢
  generalize locate options target machine = locating at meets ⊢
  cases meets with
  | @found location loaded value here there shows copy hereSame later thereSame =>
      refine ⟨?_, fun _ _ _ => ⟨value, here, rfl⟩, fun error => ⟨nofun, nofun⟩⟩
      rintro _ _ ⟨⟩
      exact ⟨location, there, loaded, rfl, shows.loads there thereSame, copy, hereSame, thereSame⟩
  | @failed error here there =>
      refine ⟨nofun, nofun, fun other => ⟨?_, ?_⟩⟩
      · rintro ⟨_, ⟨⟩⟩
        exact ⟨there, rfl⟩
      · rintro ⟨_, ⟨⟩⟩
        exact ⟨here, rfl⟩
  | crashed => exact ⟨nofun, nofun, fun error => ⟨nofun, nofun⟩⟩

def secondElement : List (Expr × Pos) :=
  [(.int (text "1") .unknown, .unknown)]

def nestedMachine (options : Options) : Machine :=
  reached (execute options 1 nestedVariable Machine.new)

theorem nestedMachine_sound (options : Options) : (nestedMachine options).Sound := by
  have arises : (nestedMachine options).Arises :=
    .executed options 1 (.fresh Machine.new_sound Machine.new_whole rfl)
      ⟨⟨trivial, trivial⟩, ⟨trivial, trivial⟩, trivial⟩
  exact arises.sound

theorem secondElement_yields (options : Options) (machine : Machine) :
    List.Forall₂ (fun index number => index.1.Yields options machine (.int number))
      secondElement [1] := by
  have one : Reading.int64? (text "1") = some 1 := by decide +kernel
  have indexed : evaluate options (.int (text "1") .unknown) machine = .ok (.int 1) machine := by
    rw [evaluate, one]
    rfl
  exact .cons ⟨by simp [Expr.targets, Expr.parts, Expr.target?], _, _, indexed, rfl⟩ .nil

/-- The second of two arrays is read as a copy of what is in its slot. -/
theorem reading_meets_locating_nested :
    ∃ machine value after location middle loaded, Machine.Coherent machine ∧
      evaluate ⟨true, 0, none, none⟩ (.indexed (.name (text "a") .unknown) secondElement) machine =
        .ok value after ∧
      locate ⟨true, 0, none, none⟩ (.indexed (.name (text "a") .unknown) secondElement) machine =
        .ok (.ok location) middle ∧
      location.load middle = .ok loaded middle ∧ machine.CopyOf loaded value ∧
      value.deep = .arr 0 [.str (text "c")] := by
  let options : Options := ⟨true, 0, none, none⟩
  let machine := nestedMachine options
  have coherent := (nestedMachine_sound options).coherent
  have one : Reading.int64? (text "1") = some 1 := by decide +kernel
  obtain ⟨free, evaluated⟩ : (∀ index ∈ secondElement, index.1.targets = []) ∧
      ∀ index ∈ secondElement, ∃ value after,
        evaluate options index.1 machine = .ok value after := by
    cases secondElement_yields options machine with
    | cons yields _ =>
        obtain ⟨free, outcome, after, evaluated, _⟩ := yields
        exact ⟨by simpa [secondElement] using free,
          by simpa [secondElement] using ⟨_, _, evaluated⟩⟩
  have read : ∃ value after,
      evaluate options (.indexed (.name (text "a") .unknown) secondElement) machine =
        .ok value after ∧ value.deep = .arr 0 [.str (text "c")] := by
    simp only [secondElement, Expr.indexed, List.foldl, evaluate, one]
    exact ⟨_, _, rfl, rfl⟩
  obtain ⟨value, after, read, deep⟩ := read
  obtain ⟨reads, _, _⟩ :=
    reading_meets_locating options rfl coherent (text "a") .unknown free evaluated
  obtain ⟨location, middle, loaded, located, loads, copy, _⟩ := reads value after read
  exact ⟨machine, value, after, location, middle, loaded, coherent, read, located, loads, copy,
    deep⟩

end Rover
