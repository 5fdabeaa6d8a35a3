import Rover.Proofs.Forest
import Rover.Proofs.Sizes

/-!
Paths of index numbers into a value: what is found along a path, and the value after a change of
what is found there. Where no array occurs twice, the change of one array by its stamp is the change
along the path that leads to it.
-/

namespace Rover

namespace Value

theorem deepAll_eq_map (values : List Value) : deepAll values = values.map deep := by
  induction values with
  | nil => rfl
  | cons first rest ih => rw [deepAll, ih, List.map_cons]

mutual

theorem deep_copy (next : Stamp) (value : Value) : (value.copy next).1.deep = value.deep := by
  cases value with
  | arr stamp elements => rw [copy, deep, deep, deepAll_copyAll (next + 1) elements]
  | _ => rfl

theorem deepAll_copyAll (next : Stamp) (values : List Value) :
    deepAll (copyAll next values).1 = deepAll values := by
  cases values with
  | nil => rfl
  | cons first rest =>
      rw [copyAll, deepAll, deepAll, deep_copy next first,
        deepAll_copyAll (copy next first).2 rest]

end

def element (number : Int64) : Value → Except Fault Value
  | arr _ elements =>
      if 0 ≤ number.toInt ∧ number.toInt < elements.length then
        .ok (elements[number.toInt.toNat]?.getD .nothing)
      else .error (.indexBounds number elements.length)
  | other => .error (.notArray (other.kind?.getD .nothing))

def follow : List Int64 → Value → Except Fault Value
  | [], value => .ok value
  | number :: rest, value => do follow rest (← value.element number)

variable {value part : Value} {path rest : List Int64} {number : Int64}

theorem element_arr_iff {stamp : Stamp} {elements : List Value} :
    (arr stamp elements).element number = .ok part ↔
      0 ≤ number.toInt ∧ elements[number.toInt.toNat]? = some part := by
  rw [element]
  split
  · next inside =>
      rw [List.getElem?_eq_getElem (show number.toInt.toNat < elements.length by omega)]
      simp [inside.1]
  · next outside =>
      constructor
      · nofun
      · rintro ⟨positive, here⟩
        obtain ⟨inside, _⟩ := List.getElem?_eq_some_iff.mp here
        omega

theorem deep_element (number : Int64) (value : Value) :
    value.deep.element number = (value.element number).map deep := by
  cases value with
  | arr stamp elements =>
      rw [deep, element, element, deepAll_eq_map, List.length_map, List.getElem?_map]
      split
      · cases elements[number.toInt.toNat]? <;> rfl
      · rfl
  | _ => rfl

theorem follow_cons (number : Int64) (rest : List Int64) (value : Value) :
    value.follow (number :: rest) = (value.element number).bind (·.follow rest) :=
  rfl

theorem follow_ne_target {fault : Fault} (failed : value.follow path = .error fault) :
    fault ≠ .target := by
  induction path generalizing value with
  | nil => cases failed
  | cons number path ih =>
      rw [follow_cons] at failed
      cases here : value.element number with
      | ok inner =>
          rw [here] at failed
          exact ih failed
      | error own =>
          rw [here] at failed
          cases failed
          rintro rfl
          unfold element at here
          split at here
          · split at here <;> cases here
          · cases here

theorem follow_append (path rest : List Int64) (value : Value) :
    value.follow (path ++ rest) = (value.follow path).bind (·.follow rest) := by
  induction path generalizing value with
  | nil => rfl
  | cons number path ih =>
      rw [List.cons_append, follow_cons, follow_cons]
      cases value.element number with
      | error fault => rfl
      | ok inner => exact ih inner

theorem deep_follow (path : List Int64) (value : Value) :
    value.deep.follow path = (value.follow path).map deep := by
  induction path generalizing value with
  | nil => rfl
  | cons number path ih =>
      rw [follow_cons, follow_cons, deep_element]
      cases value.element number with
      | error fault => rfl
      | ok inner => exact ih inner

theorem follow_cons_ok (found : value.follow (number :: rest) = .ok part) :
    ∃ stamp elements inner, value = .arr stamp elements ∧ 0 ≤ number.toInt ∧
      elements[number.toInt.toNat]? = some inner ∧ inner.follow rest = .ok part := by
  rw [follow_cons] at found
  cases here : value.element number with
  | error fault =>
      rw [here] at found
      cases found
  | ok inner =>
      rw [here] at found
      cases value with
      | arr stamp elements =>
          obtain ⟨positive, listed⟩ := element_arr_iff.mp here
          exact ⟨stamp, elements, inner, rfl, positive, listed, found⟩
      | _ => cases here

theorem at?_of_follow (found : value.follow path = .ok part) :
    value.at? (path.map (·.toInt.toNat)) = some part := by
  induction path generalizing value with
  | nil =>
      cases found
      rfl
  | cons number path ih =>
      obtain ⟨stamp, elements, inner, rfl, _, here, below⟩ := follow_cons_ok found
      rw [List.map_cons, at?, here, Option.bind_some]
      exact ih below

theorem mem_stamps_of_follow {stamp : Stamp} {elements : List Value}
    (found : value.follow path = .ok (.arr stamp elements)) : stamp ∈ value.stamps :=
  mem_stamps_of_at? (at?_of_follow found)

theorem Whole.follow (whole : value.Whole) (found : value.follow path = .ok part) : part.Whole := by
  induction path generalizing value with
  | nil =>
      cases found
      exact whole
  | cons number path ih =>
      obtain ⟨stamp, elements, inner, rfl, _, here, below⟩ := follow_cons_ok found
      exact ih (wholeAll_iff.mp whole inner (List.mem_of_getElem? here)) below

/-- Where no stamp occurs twice, an array is found by its stamp wherever it is held. -/
theorem findIn?_of_at? {values elements : List Value} {stamp : Stamp} {indexes : List Nat}
    (once : (stampsAll values).Nodup) (held : value ∈ values)
    (found : value.at? indexes = some (.arr stamp elements)) :
    findIn? stamp values = some elements := by
  induction indexes generalizing value values with
  | nil =>
      rw [at?] at found
      cases found
      exact findIn?_of_mem once held
  | cons index indexes ih =>
      obtain ⟨outer, items, inner, rfl, here, below⟩ := at?_cons found
      have outerFound := findIn?_of_mem once held
      exact findIn?_inner once outerFound
        (ih (findIn?_nodup once outerFound) (List.mem_of_getElem? here) below)

theorem findIn?_of_follow {values elements : List Value} {stamp : Stamp}
    (once : (stampsAll values).Nodup) (held : value ∈ values)
    (found : value.follow path = .ok (.arr stamp elements)) :
    findIn? stamp values = some elements :=
  findIn?_of_at? once held (at?_of_follow found)

def altered (change : Value → Value) : List Int64 → Value → Value
  | [], value => change value
  | number :: rest, arr stamp elements =>
      arr stamp (elements.modify number.toInt.toNat (altered change rest))
  | _ :: _, other => other

def onElements (change : List Value → List Value) : Value → Value
  | arr stamp elements => arr stamp (change elements)
  | other => other

variable {change other : Value → Value}

theorem altered_append (change : Value → Value) (path rest : List Int64) (value : Value) :
    value.altered change (path ++ rest) = value.altered (altered change rest) path := by
  induction path generalizing value with
  | nil => rfl
  | cons number path ih =>
      cases value with
      | arr stamp elements =>
          rw [List.cons_append, altered, altered, funext ih]
      | _ => rfl

theorem altered_arr {stamp : Stamp} {elements : List Value} {inner : Value}
    (here : elements[number.toInt.toNat]? = some inner) :
    (arr stamp elements).altered change (number :: rest) =
      arr stamp (elements.set number.toInt.toNat (inner.altered change rest)) := by
  rw [altered, List.modify_eq_set, here, Option.getD_some]

theorem altered_slot (number : Int64) (new : Value) {stamp : Stamp} {elements : List Value} :
    (arr stamp elements).altered (fun _ => new) [number] =
      onElements (·.set number.toInt.toNat new) (arr stamp elements) := by
  rw [altered, onElements, List.modify_eq_set]
  rfl

theorem altered_congr (found : value.follow path = .ok part) (same : change part = other part) :
    value.altered change path = value.altered other path := by
  induction path generalizing value with
  | nil =>
      cases found
      exact same
  | cons number path ih =>
      obtain ⟨stamp, elements, inner, rfl, _, here, below⟩ := follow_cons_ok found
      rw [altered_arr here, altered_arr here, ih below]

theorem altered_altered (first second : Value → Value) (path : List Int64) (value : Value) :
    (value.altered first path).altered second path = value.altered (second ∘ first) path := by
  induction path generalizing value with
  | nil => rfl
  | cons number path ih =>
      cases value with
      | arr stamp elements =>
          rw [altered, altered, altered, List.modify_modify_eq]
          exact congrArg (fun change => arr stamp (elements.modify _ change)) (funext ih)
      | _ => rfl

theorem altered_self (found : value.follow path = .ok part) :
    value.altered (fun _ => part) path = value := by
  induction path generalizing value with
  | nil =>
      cases found
      rfl
  | cons number path ih =>
      obtain ⟨stamp, elements, inner, rfl, _, here, below⟩ := follow_cons_ok found
      obtain ⟨inside, rfl⟩ := List.getElem?_eq_some_iff.mp here
      rw [altered_arr here, ih below, List.set_getElem_self]

theorem follow_altered (found : value.follow path = .ok part) :
    (value.altered change path).follow path = .ok (change part) := by
  induction path generalizing value with
  | nil =>
      cases found
      rfl
  | cons number path ih =>
      obtain ⟨stamp, elements, inner, rfl, positive, here, below⟩ := follow_cons_ok found
      obtain ⟨inside, _⟩ := List.getElem?_eq_some_iff.mp here
      rw [altered_arr here, follow_cons,
        element_arr_iff.mpr ⟨positive, List.getElem?_set_self inside⟩]
      exact ih below

theorem deep_altered (commutes : ∀ value, (change value).deep = other value.deep)
    (path : List Int64) (value : Value) :
    (value.altered change path).deep = value.deep.altered other path := by
  induction path generalizing value with
  | nil => exact commutes value
  | cons number path ih =>
      cases value with
      | arr stamp elements =>
          rw [altered, deep, deep, altered, deepAll_eq_map, deepAll_eq_map]
          congr 1
          apply List.ext_getElem?
          intro index
          simp only [List.getElem?_map, List.getElem?_modify]
          cases elements[index]? with
          | none => rfl
          | some inner =>
              by_cases same : number.toInt.toNat = index
              · simp only [if_pos same, Option.map_eq_map, Option.map_some, ih]
              · simp only [if_neg same, Option.map_eq_map, Option.map_some]
      | _ => rfl

/-- The change of an array changes only the element that holds it. -/
theorem modifyAll_eq_set {values : List Value} {index : Nat} {inner : Value} {stamp : Stamp}
    (once : (stampsAll values).Nodup) (here : values[index]? = some inner)
    (held : stamp ∈ inner.stamps) (change : List Value → List Value) :
    modifyAll stamp change values = values.set index (inner.modify stamp change) := by
  rw [modifyAll_eq_map]
  apply List.ext_getElem?
  intro other
  rw [List.getElem?_map]
  by_cases same : index = other
  · subst same
    obtain ⟨inside, _⟩ := List.getElem?_eq_some_iff.mp here
    rw [List.getElem?_set_self inside, here, Option.map_some]
  · rw [List.getElem?_set_ne same]
    cases found : values[other]? with
    | none => rfl
    | some value =>
        have missing : stamp ∉ value.stamps := fun inValue =>
          same (index_unique once here found held inValue)
        rw [Option.map_some, modify_of_notMem change missing]

/-- The change of one array by its stamp is the change along the path to it. -/
theorem modify_of_follow {stamp : Stamp} {elements : List Value} (once : value.stamps.Nodup)
    (found : value.follow path = .ok (.arr stamp elements)) (change : List Value → List Value) :
    value.modify stamp change = value.altered (onElements change) path := by
  induction path generalizing value with
  | nil =>
      cases found
      rw [modify, if_pos rfl]
      rfl
  | cons number path ih =>
      obtain ⟨outer, items, inner, rfl, _, here, below⟩ := follow_cons_ok found
      have held := mem_stamps_of_follow below
      rw [stamps_arr, List.nodup_cons] at once
      have within := mem_stampsAll.mpr ⟨inner, List.mem_of_getElem? here, held⟩
      have innerOnce := (stamps_sublist (List.mem_of_getElem? here)).nodup once.2
      have differs : outer ≠ stamp := fun same => once.1 (same ▸ within)
      rw [modify, if_neg differs, altered_arr here, modifyAll_eq_set once.2 here held,
        ih innerOnce below]

end Value

end Rover
