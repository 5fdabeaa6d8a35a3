import Rover.Value

/-!
The stamps of a value, one for each occurrence of an array in it. In a list of values where no
stamp occurs twice, an array is held by one value only, and a change of its elements exchanges the
stamps below it and leaves all others alone.
-/

namespace Rover
namespace Value

mutual

def stamps : Value → List Stamp
  | arr stamp elements => stamp :: stampsAll elements
  | absent | nothing | int _ | float _ | str _ => []

def stampsAll : List Value → List Stamp
  | [] => []
  | first :: rest => stamps first ++ stampsAll rest

end

@[simp] theorem stampsAll_nil : stampsAll [] = [] := by
  simp only [stampsAll]

@[simp] theorem stampsAll_cons (first : Value) (rest : List Value) :
    stampsAll (first :: rest) = first.stamps ++ stampsAll rest := by
  simp only [stampsAll]

@[simp] theorem stamps_arr (stamp : Stamp) (elements : List Value) :
    (arr stamp elements).stamps = stamp :: stampsAll elements := by
  simp only [stamps]

@[simp] theorem stamps_nothing : nothing.stamps = [] := by
  simp only [stamps]

@[simp] theorem stamps_int (number : Int64) : (int number).stamps = [] := by
  simp only [stamps]

@[simp] theorem stamps_float (number : Float) : (float number).stamps = [] := by
  simp only [stamps]

@[simp] theorem stamps_str (value : Text) : (str value).stamps = [] := by
  simp only [stamps]

@[simp] theorem stamps_ofBool (truth : Bool) : (ofBool truth).stamps = [] :=
  stamps_int _

@[simp] theorem stampsAll_append (first second : List Value) :
    stampsAll (first ++ second) = stampsAll first ++ stampsAll second := by
  induction first with
  | nil => simp
  | cons value rest ih => simp [ih]

theorem mem_stampsAll {stamp : Stamp} {values : List Value} :
    stamp ∈ stampsAll values ↔ ∃ value ∈ values, stamp ∈ value.stamps := by
  induction values with
  | nil => simp
  | cons first rest ih => simp [ih]

theorem stampsAll_sublist {some all : List Value} (sublist : some.Sublist all) :
    (stampsAll some).Sublist (stampsAll all) := by
  induction sublist with
  | slnil => simp
  | cons value _ ih => simpa using ih.trans (List.sublist_append_right _ _)
  | cons_cons value _ ih => simpa using ih.append_left value.stamps

theorem stamps_sublist {value : Value} {values : List Value} (member : value ∈ values) :
    value.stamps.Sublist (stampsAll values) := by
  have single := stampsAll_sublist (List.singleton_sublist.mpr member)
  rw [stampsAll_cons, stampsAll_nil, List.append_nil] at single
  exact single

theorem eq_of_shared {stamp : Stamp} {values : List Value} (once : (stampsAll values).Nodup)
    {first second : Value} (firstHeld : first ∈ values) (secondHeld : second ∈ values)
    (inFirst : stamp ∈ first.stamps) (inSecond : stamp ∈ second.stamps) : first = second := by
  induction values with
  | nil => simp at firstHeld
  | cons value rest ih =>
      simp only [stampsAll_cons, List.nodup_append] at once
      obtain ⟨_, restOnce, apart⟩ := once
      rcases List.mem_cons.mp firstHeld with rfl | firstRest <;>
        rcases List.mem_cons.mp secondHeld with rfl | secondRest
      · rfl
      · exact absurd rfl (apart stamp inFirst stamp (mem_stampsAll.mpr ⟨_, secondRest, inSecond⟩))
      · exact absurd rfl (apart stamp inSecond stamp (mem_stampsAll.mpr ⟨_, firstRest, inFirst⟩))
      · exact ih restOnce firstRest secondRest

mutual

theorem copy_stamps (next : Stamp) (value : Value) :
    (value.copy next).1.stamps = List.range' next value.stamps.length ∧
      (value.copy next).2 = next + value.stamps.length := by
  cases value with
  | arr stamp elements =>
      obtain ⟨copied, after⟩ := copyAll_stamps (next + 1) elements
      simp only [copy, stamps_arr, copied, after, List.length_cons, List.range'_succ]
      exact ⟨trivial, Nat.add_right_comm next 1 _⟩
  | _ => simp [copy, stamps]

theorem copyAll_stamps (next : Stamp) (values : List Value) :
    stampsAll (copyAll next values).1 = List.range' next (stampsAll values).length ∧
      (copyAll next values).2 = next + (stampsAll values).length := by
  cases values with
  | nil => simp [copyAll]
  | cons first rest =>
      obtain ⟨firstStamps, middle⟩ := copy_stamps next first
      obtain ⟨restStamps, after⟩ := copyAll_stamps (copy next first).2 rest
      simp only [copyAll, stampsAll_cons, firstStamps, restStamps, after, List.length_append]
      rw [middle, ← List.range'_append_1]
      exact ⟨rfl, Nat.add_assoc next _ _⟩

end

theorem le_copy_next (next : Stamp) (value : Value) : next ≤ (value.copy next).2 := by
  rw [(copy_stamps next value).2]
  exact Nat.le_add_right next _

theorem copy_stamps_nodup (next : Stamp) (value : Value) : (value.copy next).1.stamps.Nodup := by
  rw [(copy_stamps next value).1]
  exact List.nodup_range'

theorem mem_copy_stamps {next stamp : Stamp} {value : Value} :
    stamp ∈ (value.copy next).1.stamps ↔ next ≤ stamp ∧ stamp < (value.copy next).2 := by
  rw [(copy_stamps next value).1, (copy_stamps next value).2]
  simp [List.mem_range'_1]

mutual

theorem find?_eq_none_iff (stamp : Stamp) (value : Value) :
    value.find? stamp = none ↔ stamp ∉ value.stamps := by
  cases value with
  | arr own elements =>
      by_cases same : own = stamp
      · simp [find?, same]
      · simp [find?, same, findIn?_eq_none_iff stamp elements, Ne.symm same]
  | _ => simp [find?, stamps]

theorem findIn?_eq_none_iff (stamp : Stamp) (values : List Value) :
    findIn? stamp values = none ↔ stamp ∉ stampsAll values := by
  cases values with
  | nil => simp [findIn?]
  | cons first rest =>
      have inFirst := find?_eq_none_iff stamp first
      have inRest := findIn?_eq_none_iff stamp rest
      cases found : first.find? stamp with
      | some elements =>
          rw [found] at inFirst
          have held : stamp ∈ first.stamps := Decidable.not_not.mp fun missing =>
            nomatch inFirst.mpr missing
          simp [findIn?, found, held]
      | none =>
          have missing := inFirst.mp found
          simp [findIn?, found, missing, inRest]

end

mutual

theorem find?_stamps {stamp : Stamp} {value : Value} {elements : List Value}
    (found : value.find? stamp = some elements) {inner : Stamp}
    (below : inner ∈ stampsAll elements) :
    inner ∈ value.stamps := by
  cases value with
  | arr own items =>
      simp only [find?] at found
      rw [stamps_arr]
      split at found
      · cases found
        exact List.mem_cons_of_mem _ below
      · exact List.mem_cons_of_mem _ (findIn?_stamps found below)
  | _ => simp [find?] at found

theorem findIn?_stamps {stamp : Stamp} {values : List Value} {elements : List Value}
    (found : findIn? stamp values = some elements) {inner : Stamp}
    (below : inner ∈ stampsAll elements) : inner ∈ stampsAll values := by
  cases values with
  | nil => simp [findIn?] at found
  | cons first rest =>
      simp only [findIn?] at found
      rw [stampsAll_cons, List.mem_append]
      cases inFirst : first.find? stamp with
      | some items =>
          rw [inFirst] at found
          cases found
          exact .inl (find?_stamps inFirst below)
      | none =>
          rw [inFirst] at found
          exact .inr (findIn?_stamps found below)

end

theorem mem_stamps_of_find? {stamp : Stamp} {value : Value} {elements : List Value}
    (found : value.find? stamp = some elements) : stamp ∈ value.stamps :=
  Decidable.not_not.mp fun missing => by
    rw [(find?_eq_none_iff stamp value).mpr missing] at found
    cases found

theorem mem_stampsAll_of_findIn? {stamp : Stamp} {values elements : List Value}
    (found : findIn? stamp values = some elements) : stamp ∈ stampsAll values :=
  Decidable.not_not.mp fun missing => by
    rw [(findIn?_eq_none_iff stamp values).mpr missing] at found
    cases found

theorem findIn?_append_left {stamp : Stamp} {values elements : List Value}
    (found : findIn? stamp values = some elements) (more : List Value) :
    findIn? stamp (values ++ more) = some elements := by
  induction values with
  | nil => simp [findIn?] at found
  | cons first rest ih =>
      rw [List.cons_append]
      simp only [findIn?] at found ⊢
      cases inFirst : first.find? stamp with
      | some items =>
          rw [inFirst] at found
          exact found
      | none =>
          rw [inFirst] at found
          exact ih found

theorem findIn?_holder {stamp : Stamp} {values elements : List Value}
    (found : findIn? stamp values = some elements) :
    ∃ value ∈ values, value.find? stamp = some elements := by
  induction values with
  | nil => simp [findIn?] at found
  | cons first rest ih =>
      simp only [findIn?] at found
      cases inFirst : first.find? stamp with
      | some items =>
          rw [inFirst] at found
          cases found
          exact ⟨first, List.mem_cons_self, inFirst⟩
      | none =>
          rw [inFirst] at found
          obtain ⟨value, held, within⟩ := ih found
          exact ⟨value, List.mem_cons_of_mem _ held, within⟩

/-- Where no stamp occurs twice, whatever holds something from inside an array holds the array. -/
theorem holds_outer {stamp inner : Stamp} {values elements : List Value}
    (once : (stampsAll values).Nodup) (found : findIn? stamp values = some elements)
    (below : inner ∈ stampsAll elements) {value : Value} (held : value ∈ values)
    (within : inner ∈ value.stamps) : stamp ∈ value.stamps := by
  obtain ⟨holder, holderHeld, inHolder⟩ := findIn?_holder found
  have same : value = holder :=
    eq_of_shared once held holderHeld within (find?_stamps inHolder below)
  rw [same]
  exact mem_stamps_of_find? inHolder

mutual

theorem modify_of_notMem {stamp : Stamp} (change : List Value → List Value) {value : Value}
    (missing : stamp ∉ value.stamps) : value.modify stamp change = value := by
  cases value with
  | arr own elements =>
      rw [stamps_arr, List.mem_cons, not_or] at missing
      rw [modify, if_neg (Ne.symm missing.1), modifyAll_of_notMem change missing.2]
  | _ => rfl

theorem modifyAll_of_notMem {stamp : Stamp} (change : List Value → List Value)
    {values : List Value} (missing : stamp ∉ stampsAll values) :
    modifyAll stamp change values = values := by
  cases values with
  | nil => rfl
  | cons first rest =>
      rw [stampsAll_cons, List.mem_append, not_or] at missing
      rw [modifyAll, modify_of_notMem change missing.1, modifyAll_of_notMem change missing.2]

end

theorem modifyAll_eq_map (stamp : Stamp) (change : List Value → List Value)
    (values : List Value) : modifyAll stamp change values = values.map (modify stamp change) := by
  induction values with
  | nil => rfl
  | cons first rest ih => rw [modifyAll, ih, List.map_cons]

/-- A change that brings in no stamps but new ones. -/
def AddsOnly (allowed : Stamp → Prop) (change : List Value → List Value) : Prop :=
  ∀ elements, ∀ stamp ∈ stampsAll (change elements), stamp ∈ stampsAll elements ∨ allowed stamp

mutual

theorem modify_stamps {allowed : Stamp → Prop} {change : List Value → List Value}
    (adds : AddsOnly allowed change) (stamp : Stamp) (value : Value) {inner : Stamp}
    (held : inner ∈ (value.modify stamp change).stamps) : inner ∈ value.stamps ∨ allowed inner := by
  cases value with
  | arr own elements =>
      rw [modify, stamps_arr, List.mem_cons] at held
      rw [stamps_arr, List.mem_cons]
      rcases held with here | below
      · exact .inl (.inl here)
      · split at below
        · exact (adds elements inner below).imp_left .inr
        · exact (modifyAll_stamps adds stamp elements below).imp_left .inr
  | _ => exact .inl held

theorem modifyAll_stamps {allowed : Stamp → Prop} {change : List Value → List Value}
    (adds : AddsOnly allowed change) (stamp : Stamp) (values : List Value) {inner : Stamp}
    (held : inner ∈ stampsAll (modifyAll stamp change values)) :
    inner ∈ stampsAll values ∨ allowed inner := by
  cases values with
  | nil => exact .inl held
  | cons first rest =>
      rw [modifyAll, stampsAll_cons, List.mem_append] at held
      rw [stampsAll_cons, List.mem_append]
      rcases held with inFirst | inRest
      · exact (modify_stamps adds stamp first inFirst).imp_left .inl
      · exact (modifyAll_stamps adds stamp rest inRest).imp_left .inr

end

mutual

theorem modify_perm {stamp : Stamp} {value : Value} {elements : List Value}
    (once : value.stamps.Nodup) (found : value.find? stamp = some elements) :
    ∃ frame, stamp ∈ frame ∧ value.stamps.Perm (stampsAll elements ++ frame) ∧
      ∀ change, (value.modify stamp change).stamps.Perm (stampsAll (change elements) ++ frame) := by
  cases value with
  | arr own items =>
      simp only [find?] at found
      split at found
      · next same =>
          cases found
          refine ⟨[own], by simp [same], ?_, fun change => ?_⟩
          · simpa using (List.perm_append_singleton own (stampsAll elements)).symm
          · simpa [modify, same] using
              (List.perm_append_singleton stamp (stampsAll (change elements))).symm
      · next differs =>
          rw [stamps_arr] at once
          obtain ⟨frame, inFrame, before, after⟩ := modifyAll_perm (List.nodup_cons.mp once).2 found
          refine ⟨own :: frame, List.mem_cons_of_mem _ inFrame, ?_, fun change => ?_⟩
          · rw [stamps_arr]
            exact (before.cons own).trans List.perm_middle.symm
          · rw [modify, if_neg differs, stamps_arr]
            exact ((after change).cons own).trans List.perm_middle.symm
  | _ => simp [find?] at found

theorem modifyAll_perm {stamp : Stamp} {values elements : List Value}
    (once : (stampsAll values).Nodup) (found : findIn? stamp values = some elements) :
    ∃ frame, stamp ∈ frame ∧ (stampsAll values).Perm (stampsAll elements ++ frame) ∧
      ∀ change, (stampsAll (modifyAll stamp change values)).Perm
        (stampsAll (change elements) ++ frame) := by
  cases values with
  | nil => simp [findIn?] at found
  | cons first rest =>
      rw [stampsAll_cons, List.nodup_append] at once
      obtain ⟨firstOnce, restOnce, apart⟩ := once
      simp only [findIn?] at found
      cases inFirst : first.find? stamp with
      | some items =>
          rw [inFirst] at found
          cases found
          obtain ⟨frame, inFrame, before, after⟩ := modify_perm firstOnce inFirst
          -- the rest does not hold the array, so the change passes it by
          have missing : stamp ∉ stampsAll rest := fun held =>
            apart stamp (mem_stamps_of_find? inFirst) stamp held rfl
          refine ⟨frame ++ stampsAll rest, List.mem_append_left _ inFrame, ?_, fun change => ?_⟩
          · rw [stampsAll_cons, ← List.append_assoc]
            exact before.append_right _
          · rw [modifyAll, stampsAll_cons, modifyAll_of_notMem change missing, ← List.append_assoc]
            exact (after change).append_right _
      | none =>
          rw [inFirst] at found
          obtain ⟨frame, inFrame, before, after⟩ := modifyAll_perm restOnce found
          have missing := (find?_eq_none_iff stamp first).mp inFirst
          refine ⟨first.stamps ++ frame, List.mem_append_right _ inFrame, ?_, fun change => ?_⟩
          · rw [stampsAll_cons]
            exact (before.append_left first.stamps).trans (List.perm_append_comm_assoc _ _ _)
          · rw [modifyAll, stampsAll_cons, modify_of_notMem change missing]
            exact ((after change).append_left first.stamps).trans
              (List.perm_append_comm_assoc _ _ _)

end

theorem notMem_of_findIn? {stamp : Stamp} {values elements : List Value}
    (once : (stampsAll values).Nodup) (found : findIn? stamp values = some elements) :
    stamp ∉ stampsAll elements := by
  obtain ⟨frame, inFrame, before, _⟩ := modifyAll_perm once found
  intro within
  exact (List.nodup_append.mp (before.nodup_iff.mp once)).2.2 stamp within stamp inFrame rfl

theorem findIn?_nodup {stamp : Stamp} {values elements : List Value}
    (once : (stampsAll values).Nodup) (found : findIn? stamp values = some elements) :
    (stampsAll elements).Nodup := by
  obtain ⟨frame, _, before, _⟩ := modifyAll_perm once found
  exact (List.nodup_append.mp (before.nodup_iff.mp once)).1

theorem findIn?_of_mem {stamp : Stamp} {values elements : List Value}
    (once : (stampsAll values).Nodup) (held : arr stamp elements ∈ values) :
    findIn? stamp values = some elements := by
  induction values with
  | nil => simp at held
  | cons first rest ih =>
      rw [stampsAll_cons, List.nodup_append] at once
      rcases List.mem_cons.mp held with rfl | inRest
      · simp [findIn?, find?]
      · have below : stamp ∈ stampsAll rest := mem_stampsAll.mpr ⟨_, inRest, by simp⟩
        have missing : first.find? stamp = none :=
          (find?_eq_none_iff stamp first).mpr fun inFirst =>
          once.2.2 stamp inFirst stamp below rfl
        rw [findIn?, missing]
        exact ih once.2.1 inRest

mutual

theorem find?_inner {outer inner : Stamp} {value : Value} {elements items : List Value}
    (once : value.stamps.Nodup) (found : value.find? outer = some elements)
    (within : findIn? inner elements = some items) : value.find? inner = some items := by
  cases value with
  | arr own children =>
      rw [stamps_arr, List.nodup_cons] at once
      simp only [find?] at found ⊢
      split at found
      · cases found
        have differs : own ≠ inner := fun same =>
          once.1 (same ▸ mem_stampsAll_of_findIn? within)
        rw [if_neg differs]
        exact within
      · have deeper := findIn?_inner once.2 found within
        have differs : own ≠ inner := fun same =>
          once.1 (same ▸ mem_stampsAll_of_findIn? deeper)
        rw [if_neg differs]
        exact deeper
  | _ => simp [find?] at found

theorem findIn?_inner {outer inner : Stamp} {values elements items : List Value}
    (once : (stampsAll values).Nodup) (found : findIn? outer values = some elements)
    (within : findIn? inner elements = some items) : findIn? inner values = some items := by
  cases values with
  | nil => simp [findIn?] at found
  | cons first rest =>
      rw [stampsAll_cons, List.nodup_append] at once
      simp only [findIn?] at found ⊢
      cases inFirst : first.find? outer with
      | some children =>
          rw [inFirst] at found
          cases found
          rw [find?_inner once.1 inFirst within]
      | none =>
          rw [inFirst] at found
          have deeper := findIn?_inner once.2.1 found within
          have missing : first.find? inner = none := (find?_eq_none_iff inner first).mpr fun held =>
            once.2.2 inner held inner (mem_stampsAll_of_findIn? deeper) rfl
          rw [missing]
          exact deeper

end

theorem stampsAll_set_perm {elements : List Value} {index : Nat} {old : Value}
    (found : elements[index]? = some old) (new : Value) :
    (stampsAll (elements.set index new) ++ old.stamps).Perm (stampsAll elements ++ new.stamps) := by
  induction elements generalizing index with
  | nil => simp at found
  | cons first rest ih =>
      cases index with
      | zero =>
          cases found
          apply List.perm_iff_count.mpr
          intro stamp
          simp only [List.set_cons_zero, stampsAll_cons, List.count_append]
          omega
      | succ index =>
          rw [List.getElem?_cons_succ] at found
          simp only [List.set_cons_succ, stampsAll_cons, List.append_assoc]
          exact (ih found).append_left first.stamps

theorem addsOnly_set (index : Nat) (new : Value) :
    AddsOnly (· ∈ new.stamps) (·.set index new) := by
  intro elements stamp member
  obtain ⟨value, held, within⟩ := mem_stampsAll.mp member
  rcases List.mem_or_eq_of_mem_set held with old | rfl
  · exact .inl (mem_stampsAll.mpr ⟨value, old, within⟩)
  · exact .inr within

theorem addsOnly_push (new : Value) : AddsOnly (· ∈ new.stamps) (· ++ [new]) := by
  intro elements stamp member
  simpa using member

theorem addsOnly_dropLast : AddsOnly (· ∈ ([] : List Stamp)) List.dropLast := by
  intro elements stamp member
  exact .inl ((stampsAll_sublist (List.dropLast_sublist elements)).subset member)

theorem stampsAll_dropLast {elements : List Value} {last : Value}
    (found : elements.getLast? = some last) :
    stampsAll elements.dropLast ++ last.stamps = stampsAll elements := by
  obtain ⟨before, rfl⟩ := List.getLast?_eq_some_iff.mp found
  simp

end Value
end Rover
