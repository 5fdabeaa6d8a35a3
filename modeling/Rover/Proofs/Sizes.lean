import Rover.Proofs.Leaves
import Rover.Proofs.Ownership

/-!
How long arrays are while an expression is evaluated. What a machine holds is never let go before
the expression is complete, and only `pop` makes an array shorter, so that a slot which was found
stays there as long as nothing is popped.
-/

namespace Rover

namespace Value

mutual

def sizes : Value → List (Stamp × Nat)
  | arr stamp elements => (stamp, elements.length) :: sizesAll elements
  | absent | nothing | int _ | float _ | str _ => []

def sizesAll : List Value → List (Stamp × Nat)
  | [] => []
  | first :: rest => sizes first ++ sizesAll rest

end

@[simp] theorem sizesAll_nil : sizesAll [] = [] := by
  simp only [sizesAll]

@[simp] theorem sizesAll_cons (first : Value) (rest : List Value) :
    sizesAll (first :: rest) = first.sizes ++ sizesAll rest := by
  simp only [sizesAll]

@[simp] theorem sizes_arr (stamp : Stamp) (elements : List Value) :
    (arr stamp elements).sizes = (stamp, elements.length) :: sizesAll elements := by
  simp only [sizes]

@[simp] theorem sizesAll_append (first second : List Value) :
    sizesAll (first ++ second) = sizesAll first ++ sizesAll second := by
  induction first with
  | nil => simp
  | cons value rest ih => simp [ih]

theorem mem_sizesAll {entry : Stamp × Nat} {values : List Value} :
    entry ∈ sizesAll values ↔ ∃ value ∈ values, entry ∈ value.sizes := by
  induction values with
  | nil => simp
  | cons first rest ih => simp [ih]

mutual

theorem map_fst_sizes (value : Value) : value.sizes.map (·.1) = value.stamps := by
  cases value with
  | arr stamp elements => simp [map_fst_sizesAll elements]
  | _ => simp [sizes, stamps]

theorem map_fst_sizesAll (values : List Value) :
    (sizesAll values).map (·.1) = stampsAll values := by
  cases values with
  | nil => simp
  | cons first rest => simp [map_fst_sizes first, map_fst_sizesAll rest]

end

theorem mem_stampsAll_of_sizesAll {entry : Stamp × Nat} {values : List Value}
    (held : entry ∈ sizesAll values) : entry.1 ∈ stampsAll values :=
  map_fst_sizesAll values ▸ List.mem_map_of_mem held

mutual

theorem find?_of_sizes {stamp : Stamp} {length : Nat} {value : Value} (once : value.stamps.Nodup)
    (held : (stamp, length) ∈ value.sizes) :
    ∃ elements, value.find? stamp = some elements ∧ elements.length = length := by
  cases value with
  | arr own elements =>
      rw [stamps_arr, List.nodup_cons] at once
      rw [sizes_arr, List.mem_cons] at held
      rw [find?]
      rcases held with here | below
      · cases here
        exact ⟨elements, if_pos rfl, rfl⟩
      · have differs : own ≠ stamp := fun same => once.1 (same ▸ mem_stampsAll_of_sizesAll below)
        rw [if_neg differs]
        exact findIn?_of_sizesAll once.2 below
  | _ => simp [sizes] at held

theorem findIn?_of_sizesAll {stamp : Stamp} {length : Nat} {values : List Value}
    (once : (stampsAll values).Nodup) (held : (stamp, length) ∈ sizesAll values) :
    ∃ elements, findIn? stamp values = some elements ∧ elements.length = length := by
  cases values with
  | nil => simp at held
  | cons first rest =>
      rw [stampsAll_cons, List.nodup_append] at once
      rw [sizesAll_cons, List.mem_append] at held
      rw [findIn?]
      rcases held with inFirst | inRest
      · obtain ⟨elements, found, same⟩ := find?_of_sizes once.1 inFirst
        exact ⟨elements, by rw [found], same⟩
      · have missing : first.find? stamp = none :=
          (find?_eq_none_iff stamp first).mpr fun inFirst =>
          once.2.2 stamp inFirst stamp (mem_stampsAll_of_sizesAll inRest) rfl
        rw [missing]
        exact findIn?_of_sizesAll once.2.1 inRest

end

mutual

theorem modify_sizes {stamp : Stamp} {value : Value} {elements : List Value}
    (once : value.stamps.Nodup) (found : value.find? stamp = some elements) :
    ∃ frame, value.sizes.Perm ((stamp, elements.length) :: sizesAll elements ++ frame) ∧
      ∀ change, (value.modify stamp change).sizes.Perm
        ((stamp, (change elements).length) :: sizesAll (change elements) ++ frame) := by
  cases value with
  | arr own items =>
      simp only [find?] at found
      split at found
      · next same =>
          cases found
          subst same
          refine ⟨[], by simp, fun change => ?_⟩
          simp [modify]
      · next differs =>
          rw [stamps_arr] at once
          obtain ⟨frame, before, after⟩ := modifyAll_sizes (List.nodup_cons.mp once).2 found
          refine ⟨(own, items.length) :: frame, ?_, fun change => ?_⟩
          · rw [sizes_arr]
            exact (before.cons _).trans List.perm_middle.symm
          · rw [modify, if_neg differs, sizes_arr, modifyAll_eq_map, List.length_map,
              ← modifyAll_eq_map]
            exact ((after change).cons _).trans List.perm_middle.symm
  | _ => simp [find?] at found

theorem modifyAll_sizes {stamp : Stamp} {values elements : List Value}
    (once : (stampsAll values).Nodup) (found : findIn? stamp values = some elements) :
    ∃ frame, (sizesAll values).Perm ((stamp, elements.length) :: sizesAll elements ++ frame) ∧
      ∀ change, (sizesAll (modifyAll stamp change values)).Perm
        ((stamp, (change elements).length) :: sizesAll (change elements) ++ frame) := by
  cases values with
  | nil => simp [findIn?] at found
  | cons first rest =>
      rw [stampsAll_cons, List.nodup_append] at once
      obtain ⟨firstOnce, restOnce, apart⟩ := once
      simp only [findIn?] at found
      cases inFirst : first.find? stamp with
      | some items =>
          rw [inFirst] at found
          cases found
          obtain ⟨frame, before, after⟩ := modify_sizes firstOnce inFirst
          have missing : stamp ∉ stampsAll rest := fun held =>
            apart stamp (mem_stamps_of_find? inFirst) stamp held rfl
          refine ⟨frame ++ sizesAll rest, ?_, fun change => ?_⟩
          · rw [sizesAll_cons, ← List.append_assoc]
            exact before.append_right _
          · rw [modifyAll, sizesAll_cons, modifyAll_of_notMem change missing, ← List.append_assoc]
            exact (after change).append_right _
      | none =>
          rw [inFirst] at found
          obtain ⟨frame, before, after⟩ := modifyAll_sizes restOnce found
          have missing := (find?_eq_none_iff stamp first).mp inFirst
          refine ⟨first.sizes ++ frame, ?_, fun change => ?_⟩
          · rw [sizesAll_cons]
            exact (before.append_left first.sizes).trans (List.perm_append_comm_assoc _ _ _)
          · rw [modifyAll, sizesAll_cons, modify_of_notMem change missing]
            exact ((after change).append_left first.sizes).trans
              (List.perm_append_comm_assoc _ _ _)

end

theorem mem_sizesAll_of_findIn? {stamp : Stamp} {values elements : List Value}
    (once : (stampsAll values).Nodup) (found : findIn? stamp values = some elements) :
    (stamp, elements.length) ∈ sizesAll values := by
  obtain ⟨frame, before, _⟩ := modifyAll_sizes once found
  exact before.mem_iff.mpr List.mem_cons_self

theorem subset_set {elements : List Value} {index : Nat} {old : Value}
    (here : elements[index]? = some old) (new : Value) :
    elements ⊆ elements.set index new ++ [old] := by
  intro value member
  obtain ⟨position, found⟩ := List.mem_iff_getElem?.mp member
  by_cases same : index = position
  · subst same
    rw [here] at found
    cases found
    exact List.mem_append_right _ List.mem_cons_self
  · refine List.mem_append_left _ (List.mem_iff_getElem?.mpr ⟨position, ?_⟩)
    rw [List.getElem?_set_ne same, found]

mutual

def Whole : Value → Prop
  | absent => False
  | arr _ elements => WholeAll elements
  | nothing | int _ | float _ | str _ => True

def WholeAll : List Value → Prop
  | [] => True
  | first :: rest => Whole first ∧ WholeAll rest

end

theorem wholeAll_iff {values : List Value} : WholeAll values ↔ ∀ value ∈ values, value.Whole := by
  induction values with
  | nil => simp [WholeAll]
  | cons first rest ih => simp [WholeAll, ih]

theorem WholeAll.subset {some all : List Value} (whole : WholeAll all) (subset : some ⊆ all) :
    WholeAll some :=
  wholeAll_iff.mpr fun value member => wholeAll_iff.mp whole value (subset member)

theorem Whole.kind? {value : Value} (whole : value.Whole) : ∃ kind, value.kind? = some kind := by
  cases value with
  | absent => exact whole.elim
  | _ => exact ⟨_, rfl⟩

mutual

theorem whole_iff_each {value : Value} : value.Whole ↔ value.Each (· ≠ .absent) := by
  cases value with
  | absent => exact ⟨False.elim, fun present => present rfl⟩
  | arr stamp elements => exact wholeAll_iff_each
  | _ => exact ⟨fun _ => nofun, fun _ => trivial⟩

theorem wholeAll_iff_each {values : List Value} :
    WholeAll values ↔ EachIn (· ≠ .absent) values := by
  cases values with
  | nil => exact Iff.rfl
  | cons first rest => exact and_congr whole_iff_each wholeAll_iff_each

end

theorem Whole.copy {value : Value} (whole : value.Whole) (next : Stamp) :
    (value.copy next).1.Whole :=
  whole_iff_each.mpr ((whole_iff_each.mp whole).copy next)

theorem WholeAll.findIn? {stamp : Stamp} {values elements : List Value} (whole : WholeAll values)
    (found : findIn? stamp values = some elements) : WholeAll elements :=
  wholeAll_iff_each.mpr ((wholeAll_iff_each.mp whole).findIn? found)

theorem WholeAll.modifyAll {change : List Value → List Value}
    (keeps : ∀ {elements}, WholeAll elements → WholeAll (change elements)) {values : List Value}
    (whole : WholeAll values) (stamp : Stamp) : WholeAll (modifyAll stamp change values) :=
  wholeAll_iff_each.mpr <| (wholeAll_iff_each.mp whole).modifyAll
    (fun each => wholeAll_iff_each.mp (keeps (wholeAll_iff_each.mpr each))) stamp

end Value

theorem Scope.values_define (scope : Scope Value) (name : Text) (new : Binding Value) :
    (scope.define name new).map (·.2.value) ⊆ new.value :: scope.map (·.2.value) := by
  induction scope with
  | nil => exact List.Subset.refl _
  | cons entry rest ih =>
      rw [Scope.define]
      split
      · exact List.cons_subset_cons _ (List.subset_cons_self _ _)
      · rw [List.map_cons, List.map_cons]
        refine List.cons_subset.mpr ⟨by simp, fun value member => ?_⟩
        rcases List.mem_cons.mp (ih member) with rfl | old
        · exact List.mem_cons_self
        · exact List.mem_cons_of_mem _ (List.mem_cons_of_mem _ old)

theorem Scope.values_before_define {scope : Scope Value} {name : Text} {old : Binding Value}
    (found : scope.find? name = some old) (new : Binding Value) :
    scope.map (·.2.value) ⊆ old.value :: (scope.define name new).map (·.2.value) := by
  induction scope with
  | nil => cases found
  | cons entry rest ih =>
      rw [Scope.find?] at found
      rw [Scope.define]
      split at found
      · next same =>
          cases found
          rw [if_pos same]
          exact List.cons_subset_cons _ (List.subset_cons_self _ _)
      · next differs =>
          rw [if_neg differs, List.map_cons, List.map_cons]
          refine List.cons_subset.mpr ⟨by simp, fun value member => ?_⟩
          rcases List.mem_cons.mp (ih found member) with rfl | kept
          · exact List.mem_cons_self
          · exact List.mem_cons_of_mem _ (List.mem_cons_of_mem _ kept)

theorem Chain.values_define (chain : Chain Value) (name : Text) (new : Binding Value) :
    (chain.define name new).values ⊆ new.value :: chain.values := by
  cases chain with
  | nil => exact List.nil_subset _
  | cons scope outer =>
      rw [Chain.define, values_cons, values_cons, ← List.cons_append]
      exact List.append_subset.mpr
        ⟨List.subset_append_of_subset_left _ (scope.values_define name new),
        List.subset_append_right _ _⟩

theorem Chain.values_set (chain : Chain Value) (name : Text) (value : Value) :
    (chain.set name value).values ⊆ value :: chain.values := by
  induction chain with
  | nil => exact List.nil_subset _
  | cons scope outer ih =>
      rw [Chain.set]
      split
      · next binding found =>
          exact Chain.values_define (scope :: outer) name ⟨value, binding.constant⟩
      · rw [values_cons, values_cons]
        refine List.append_subset.mpr ⟨by simp, fun other member => ?_⟩
        rcases List.mem_cons.mp (ih member) with rfl | old
        · exact List.mem_cons_self
        · exact List.mem_cons_of_mem _ (List.mem_append_right _ old)

theorem Chain.values_before_set {chain : Chain Value} {name : Text} {old : Binding Value}
    (found : chain.find? name = some old) (value : Value) :
    chain.values ⊆ old.value :: (chain.set name value).values := by
  induction chain with
  | nil => cases found
  | cons scope outer ih =>
      rw [Chain.find?] at found
      rw [Chain.set]
      cases inScope : scope.find? name with
      | some binding =>
          rw [inScope] at found
          cases found
          rw [values_cons, values_cons, ← List.cons_append]
          exact List.append_subset.mpr ⟨List.subset_append_of_subset_left _
            (Scope.values_before_define inScope _), List.subset_append_right _ _⟩
      | none =>
          rw [inScope] at found
          rw [values_cons, values_cons]
          refine List.append_subset.mpr ⟨by simp, fun other member => ?_⟩
          rcases List.mem_cons.mp (ih found member) with rfl | kept
          · exact List.mem_cons_self
          · exact List.mem_cons_of_mem _ (List.mem_append_right _ kept)

theorem Chain.values_subset {chain other : Chain Value} (subset : other ⊆ chain) :
    other.values ⊆ chain.values := by
  intro value member
  obtain ⟨scope, inOther, inScope⟩ := List.mem_flatMap.mp member
  exact List.mem_flatMap.mpr ⟨scope, subset inOther, inScope⟩

namespace Machine

theorem held_clear (machine : Machine) : held { machine with orphans := [] } ⊆ machine.held :=
  List.append_subset.mpr ⟨List.subset_append_left _ _, List.nil_subset _⟩

theorem held_narrow (machine : Machine) {chain : Chain Value} (subset : chain ⊆ machine.scopes) :
    held { machine with scopes := chain } ⊆ machine.held :=
  List.append_subset.mpr ⟨List.subset_append_of_subset_left _ (Chain.values_subset subset),
    List.subset_append_right _ _⟩

theorem held_define (machine : Machine) (name : Text) (binding : Binding Value) :
    held { machine with scopes := machine.scopes.define name binding } ⊆
      binding.value :: machine.held :=
  List.append_subset.mpr
    ⟨List.subset_append_of_subset_left machine.orphans (Chain.values_define _ _ _),
      List.subset_append_right (binding.value :: machine.scopes.values) _⟩

theorem held_set {machine : Machine} {name : Text} {binding : Binding Value}
    (found : machine.scopes.find? name = some binding) (value : Value) (next : Stamp) :
    held { machine with
      next
      orphans := binding.value :: machine.orphans
      scopes := machine.scopes.set name value } ⊆ value :: machine.held := by
  refine List.append_subset.mpr ⟨?_, List.cons_subset.mpr ⟨?_, ?_⟩⟩
  · exact List.subset_append_of_subset_left machine.orphans (Chain.values_set _ _ _)
  · exact List.mem_cons_of_mem _ (List.mem_append_left _ (Chain.mem_values_of_find? found))
  · exact List.subset_append_right (value :: machine.scopes.values) _

def Whole (machine : Machine) : Prop :=
  Value.WholeAll machine.held

/-- The later machine is whole and still holds every array, none of them shorter unless something
was popped. -/
structure Lasts (pops : Prop) (old new : Machine) : Prop where
  whole : new.Whole
  sizes : ∀ {stamp length}, (stamp, length) ∈ Value.sizesAll old.held →
    ∃ later, (stamp, later) ∈ Value.sizesAll new.held ∧ (¬pops → length ≤ later)

variable {pops wider : Prop} {old middle new machine : Machine}

theorem Lasts.refl (whole : machine.Whole) : machine.Lasts pops machine :=
  ⟨whole, fun held => ⟨_, held, fun _ => Nat.le_refl _⟩⟩

theorem Lasts.trans (first : old.Lasts pops middle) (second : middle.Lasts pops new) :
    old.Lasts pops new := by
  refine ⟨second.whole, fun held => ?_⟩
  obtain ⟨later, inMiddle, longer⟩ := first.sizes held
  obtain ⟨last, inNew, longest⟩ := second.sizes inMiddle
  exact ⟨last, inNew, fun kept => Nat.le_trans (longer kept) (longest kept)⟩

theorem Lasts.mono (lasts : old.Lasts pops new) (implies : pops → wider) : old.Lasts wider new := by
  refine ⟨lasts.whole, fun held => ?_⟩
  obtain ⟨later, inNew, longer⟩ := lasts.sizes held
  exact ⟨later, inNew, fun kept => longer fun popped => kept (implies popped)⟩

theorem Lasts.of_held (lasts : old.Lasts pops middle) (same : new.held = middle.held) :
    old.Lasts pops new := by
  obtain ⟨whole, sizes⟩ := lasts
  unfold Whole at whole
  rw [← same] at whole sizes
  exact ⟨whole, sizes⟩

theorem Whole.binding (whole : machine.Whole) {name : Text} {binding : Binding Value}
    (found : machine.scopes.find? name = some binding) : binding.value.Whole :=
  Value.wholeAll_iff.mp whole _ (List.mem_append_left _ (Chain.mem_values_of_find? found))

theorem Whole.array (whole : machine.Whole) {stamp : Stamp} {elements : List Value}
    (found : machine.array? stamp = some elements) : Value.WholeAll elements :=
  Value.WholeAll.findIn? whole found

theorem lasts_modifyArray (sound : machine.Sound) (whole : machine.Whole) {stamp : Stamp}
    {elements : List Value} (found : machine.array? stamp = some elements)
    {change : List Value → List Value} (dropped : List Value) (next : Stamp)
    (keeps : ∀ {elements}, Value.WholeAll elements → Value.WholeAll (change elements))
    (within : dropped ⊆ elements) (covers : elements ⊆ change elements ++ dropped)
    (longer : ¬pops → elements.length ≤ (change elements).length) :
    machine.Lasts pops (Machine.modifyArray stamp change
      { machine with next, orphans := dropped ++ machine.orphans }) := by
  -- what is dropped lies in the array, so the change passes it by
  have droppedKept : Value.modifyAll stamp change dropped = dropped :=
    Value.modifyAll_of_notMem change fun member => by
      obtain ⟨value, inDropped, inValue⟩ := Value.mem_stampsAll.mp member
      exact Value.notMem_of_findIn? sound.once found
        (Value.mem_stampsAll.mpr ⟨value, within inDropped, inValue⟩)
  have held : (Machine.modifyArray stamp change
      { machine with next, orphans := dropped ++ machine.orphans }).held =
      Value.modifyAll stamp change machine.scopes.values ++
        (dropped ++ Value.modifyAll stamp change machine.orphans) := by
    rw [held_modifyArray, Machine.held, modifyAll_append, modifyAll_append, droppedKept]
  constructor
  · have after := Value.WholeAll.modifyAll keeps whole stamp
    rw [Machine.held, modifyAll_append] at after
    unfold Whole
    rw [held]
    refine Value.wholeAll_iff.mpr fun value member => ?_
    simp only [List.mem_append] at member
    rcases member with inScopes | inDropped | inOrphans
    · exact Value.wholeAll_iff.mp after value (List.mem_append_left _ inScopes)
    · exact Value.wholeAll_iff.mp (whole.array found) value (within inDropped)
    · exact Value.wholeAll_iff.mp after value (List.mem_append_right _ inOrphans)
  · obtain ⟨frame, before, after⟩ := Value.modifyAll_sizes sound.once found
    have afterwards := after change
    rw [Machine.held, modifyAll_append, Value.sizesAll_append] at afterwards
    intro own length member
    rw [held]
    simp only [Value.sizesAll_append, List.mem_append]
    have inside := before.mem_iff.mp member
    simp only [List.cons_append, List.mem_cons, List.mem_append] at inside
    rcases inside with here | below | beside
    · cases here
      have kept := afterwards.mem_iff.mpr List.mem_cons_self
      exact ⟨_, (List.mem_append.mp kept).imp_right .inr, longer⟩
    · refine ⟨length, ?_, fun _ => Nat.le_refl _⟩
      obtain ⟨value, inElements, inValue⟩ := Value.mem_sizesAll.mp below
      rcases List.mem_append.mp (covers inElements) with kept | lost
      · have listed := Value.mem_sizesAll.mpr ⟨value, kept, inValue⟩
        have later := afterwards.mem_iff.mpr
          (List.mem_cons_of_mem _ (List.mem_append_left _ listed))
        exact (List.mem_append.mp later).imp_right .inr
      · exact .inr (.inl (Value.mem_sizesAll.mpr ⟨value, lost, inValue⟩))
    · have later := afterwards.mem_iff.mpr
        (List.mem_cons_of_mem _ (List.mem_append_right _ beside))
      exact ⟨length, (List.mem_append.mp later).imp_right .inr, fun _ => Nat.le_refl _⟩

theorem lasts_set (whole : machine.Whole) {name : Text} {binding : Binding Value}
    (found : machine.scopes.find? name = some binding) {value : Value} (new : value.Whole)
    (next : Stamp) :
    machine.Lasts pops { machine with
      next
      orphans := binding.value :: machine.orphans
      scopes := machine.scopes.set name value } := by
  constructor
  · have both : Value.WholeAll (value :: machine.held) := ⟨new, whole⟩
    exact both.subset (held_set found value next)
  · intro stamp length member
    refine ⟨length, ?_, fun _ => Nat.le_refl _⟩
    obtain ⟨other, inHeld, inOther⟩ := Value.mem_sizesAll.mp member
    refine Value.mem_sizesAll.mpr ⟨other, ?_, inOther⟩
    rcases List.mem_append.mp inHeld with inScopes | inOrphans
    · rcases List.mem_cons.mp (Chain.values_before_set found value inScopes) with rfl | kept
      · exact List.mem_append_right _ List.mem_cons_self
      · exact List.mem_append_left _ kept
    · exact List.mem_append_right _ (List.mem_cons_of_mem _ inOrphans)

end Machine

namespace Location

def Live (machine : Machine) (location : Location) : Prop :=
  match location.place with
  | .named _ => True
  | .slot stamp index =>
      ∃ length, (stamp, length) ∈ Value.sizesAll machine.held ∧ index < length

variable {pops : Prop} {machine old new : Machine} {location : Location}

theorem Live.later (live : location.Live old) (lasts : old.Lasts pops new) (kept : ¬pops) :
    location.Live new := by
  obtain ⟨place, constant, root⟩ := location
  cases place with
  | named name => trivial
  | slot stamp index =>
      obtain ⟨length, held, inside⟩ := live
      obtain ⟨later, heldLater, longer⟩ := lasts.sizes held
      exact ⟨later, heldLater, Nat.lt_of_lt_of_le inside (longer kept)⟩

theorem Live.element {stamp : Stamp} {index : Nat} {constant : Bool} {root : Text}
    (live : Live machine ⟨.slot stamp index, constant, root⟩) (sound : machine.Sound) :
    ∃ elements value, machine.array? stamp = some elements ∧ elements[index]? = some value := by
  obtain ⟨length, held, inside⟩ := live
  obtain ⟨elements, found, rfl⟩ := Value.findIn?_of_sizesAll sound.once held
  exact ⟨elements, _, found, List.getElem?_eq_getElem inside⟩

/-- A place is read without changing anything, and only a slot that is gone cannot be read. -/
theorem load_spec (sound : machine.Sound) (whole : machine.Whole) (location : Location) :
    Leads location.load machine
      (fun value after => after = machine ∧ value.Whole ∧
        ∀ stamp elements, value = .arr stamp elements → machine.array? stamp = some elements)
      (fun stop after => after = machine ∧ ¬location.Live machine ∧ ∃ crash,
        stop = .crash crash) := by
  obtain ⟨place, constant, root⟩ := location
  cases place with
  | named name =>
      rw [leads_load_named]
      refine ⟨rfl, ?_⟩
      cases found : machine.scopes.find? name with
      | none => exact ⟨trivial, nofun⟩
      | some binding =>
          refine ⟨whole.binding found, fun stamp elements same => ?_⟩
          apply Value.findIn?_of_mem sound.once
          rw [← same]
          exact List.mem_append_left _ (Chain.mem_values_of_find? found)
  | slot stamp index =>
      rw [leads_load_slot]
      split
      · next value here =>
          cases found : machine.array? stamp with
          | none => simp [found] at here
          | some elements =>
              rw [found, Option.getD_some] at here
              have member := List.mem_of_getElem? here
              refine ⟨rfl, Value.wholeAll_iff.mp (whole.array found) value member, ?_⟩
              rintro inner items rfl
              exact Value.findIn?_inner sound.once found
                (Value.findIn?_of_mem (Value.findIn?_nodup sound.once found) member)
      · next missing =>
          refine ⟨rfl, fun live => ?_, _, rfl⟩
          obtain ⟨elements, value, found, here⟩ := live.element sound
          rw [found, Option.getD_some, here] at missing
          cases missing

end Location

end Rover
