import Rover.Proofs.Action
import Rover.Proofs.Evolution

/-!
Every array is held in one place. While an expression is evaluated, variables and orphans together
hold each array once; a value that was computed is held by no variable; and a location knows the
variable that it lies in for as long as it lies in one.
-/

namespace Rover

namespace Machine

/-- Everything that a location may lie in. -/
def held (machine : Machine) : List Value :=
  machine.scopes.values ++ machine.orphans

def bound (machine : Machine) : List Stamp :=
  Value.stampsAll machine.scopes.values

/-- No array is held twice, and the stamps from `next` on are unused. -/
structure Sound (machine : Machine) : Prop where
  once : (Value.stampsAll machine.held).Nodup
  below : ∀ stamp ∈ Value.stampsAll machine.held, stamp < machine.next

/-- An array that a variable holds or that is yet to be made, and so lies in no orphan. -/
def Owns (machine : Machine) (stamp : Stamp) : Prop :=
  stamp ∈ machine.bound ∨ machine.next ≤ stamp

theorem stampsAll_held (machine : Machine) :
    Value.stampsAll machine.held = machine.bound ++ Value.stampsAll machine.orphans :=
  Value.stampsAll_append _ _

theorem modifyAll_append (stamp : Stamp) (change : List Value → List Value)
    (first second : List Value) :
    Value.modifyAll stamp change (first ++ second) =
      Value.modifyAll stamp change first ++ Value.modifyAll stamp change second := by
  simp only [Value.modifyAll_eq_map, List.map_append]

theorem held_modifyArray (stamp : Stamp) (change : List Value → List Value) (machine : Machine) :
    (machine.modifyArray stamp change).held = Value.modifyAll stamp change machine.held := by
  simp only [held, modifyArray, modifyAll_append]
  congr 1
  simp [Chain.values, Value.modifyAll_eq_map, List.map_flatMap, List.flatMap_map, Function.comp_def]

theorem new_sound : Machine.new.Sound := by
  constructor <;> simp [Machine.new, held]

namespace Sound

variable {machine : Machine} (sound : machine.Sound)

include sound

theorem bound_nodup : machine.bound.Nodup := by
  have once := sound.once
  rw [stampsAll_held] at once
  exact (List.nodup_append.mp once).1

theorem bound_lt {stamp : Stamp} (held : stamp ∈ machine.bound) : stamp < machine.next :=
  sound.below stamp (by rw [stampsAll_held]; exact List.mem_append_left _ held)

theorem notMem_orphans {stamp : Stamp} (owned : machine.Owns stamp) :
    stamp ∉ Value.stampsAll machine.orphans := by
  intro orphaned
  rcases owned with held | unused
  · have once := sound.once
    rw [stampsAll_held] at once
    exact (List.nodup_append.mp once).2.2 stamp held stamp orphaned rfl
  · have below := sound.below stamp (by rw [stampsAll_held]; exact List.mem_append_right _ orphaned)
    exact Nat.not_le.mpr below unused

theorem extend {after : Machine} {fresh : List Stamp} (fresh_nodup : fresh.Nodup)
    (unused : ∀ stamp ∈ fresh, machine.next ≤ stamp ∧ stamp < after.next)
    (next_le : machine.next ≤ after.next)
    (perm : (Value.stampsAll after.held).Perm (Value.stampsAll machine.held ++ fresh)) :
    after.Sound := by
  constructor
  · apply perm.nodup_iff.mpr
    refine List.nodup_append.mpr ⟨sound.once, fresh_nodup, ?_⟩
    intro old oldHeld new newFresh same
    subst same
    exact Nat.not_le.mpr (sound.below old oldHeld) (unused old newFresh).1
  · intro stamp member
    rcases List.mem_append.mp (perm.mem_iff.mp member) with old | new
    · exact Nat.lt_of_lt_of_le (sound.below stamp old) next_le
    · exact (unused stamp new).2

theorem shrink {after : Machine} (sublist : after.held.Sublist machine.held)
    (next_le : machine.next ≤ after.next) : after.Sound := by
  have stamps := Value.stampsAll_sublist sublist
  exact ⟨stamps.nodup sound.once,
    fun stamp member => Nat.lt_of_lt_of_le (sound.below stamp (stamps.subset member)) next_le⟩

theorem clear : Sound { machine with orphans := [] } := by
  refine sound.shrink ?_ (Nat.le_refl _)
  rw [held, List.append_nil]
  exact List.sublist_append_left _ _

theorem close : Sound { machine with scopes := machine.scopes.tail } := by
  refine sound.shrink (List.Sublist.append_right ?_ _) (Nat.le_refl _)
  cases machine.scopes with
  | nil => exact List.Sublist.refl _
  | cons scope outer => exact List.sublist_append_right _ _

end Sound

/-- What the evaluation of an expression does to a machine. Old orphans are out of its reach, and
new ones come from variables. -/
structure Evolves (may : Text → Prop) (old new : Machine) : Prop where
  before : old.Sound
  after : new.Sound
  next_le : old.next ≤ new.next
  scopes : old.scopes.Evolved old.next may new.scopes
  orphans : ∃ added, new.orphans = added ++ old.orphans ∧
    ∀ stamp ∈ Value.stampsAll added, old.Owns stamp

/-- Stamps that have left the variables: each of them was owned before, and no variable holds it
now. -/
structure Frees (old new : Machine) (stamps : List Stamp) : Prop where
  once : stamps.Nodup
  below : ∀ stamp ∈ stamps, stamp < new.next
  free : ∀ stamp ∈ stamps, stamp ∉ new.bound
  owned : ∀ stamp ∈ stamps, old.Owns stamp

namespace Evolves

variable {may : Text → Prop} {old middle new : Machine}

theorem refl (may : Text → Prop) {machine : Machine} (sound : machine.Sound) :
    machine.Evolves may machine :=
  ⟨sound, sound, Nat.le_refl _, .refl .., [], rfl, by simp⟩

theorem owns (evolves : old.Evolves may middle) {stamp : Stamp} (owned : middle.Owns stamp) :
    old.Owns stamp := by
  rcases owned with held | unused
  · exact evolves.scopes.stamps held
  · exact .inr (Nat.le_trans evolves.next_le unused)

theorem trans (first : old.Evolves may middle) (second : middle.Evolves may new) :
    old.Evolves may new := by
  obtain ⟨added, addedEq, addedOwned⟩ := first.orphans
  obtain ⟨more, moreEq, moreOwned⟩ := second.orphans
  refine ⟨first.before, second.after, Nat.le_trans first.next_le second.next_le,
    first.scopes.trans first.next_le second.scopes, more ++ added, ?_, ?_⟩
  · rw [moreEq, addedEq, List.append_assoc]
  · intro stamp member
    rw [Value.stampsAll_append, List.mem_append] at member
    rcases member with inMore | inAdded
    · exact first.owns (moreOwned stamp inMore)
    · exact addedOwned stamp inAdded

theorem of_eq (evolves : old.Evolves may middle) (scopes : new.scopes = middle.scopes)
    (orphans : new.orphans = middle.orphans) (next : new.next = middle.next) :
    old.Evolves may new := by
  have held : new.held = middle.held := by rw [Machine.held, Machine.held, scopes, orphans]
  refine ⟨evolves.before, ⟨held ▸ evolves.after.once, ?_⟩, next ▸ evolves.next_le,
    scopes ▸ evolves.scopes, orphans ▸ evolves.orphans⟩
  rw [held, next]
  exact evolves.after.below

theorem flushed (evolves : old.Evolves may new) (writer : Option Writer) :
    old.Evolves may (new.flushed writer) :=
  evolves.of_eq (flushed_scopes writer new) (flushed_orphans writer new) (flushed_next writer new)

theorem advance (evolves : old.Evolves may middle) {next : Stamp} (next_le : middle.next ≤ next) :
    old.Evolves may { middle with next } :=
  ⟨evolves.before, evolves.after.shrink (List.Sublist.refl _) next_le,
    Nat.le_trans evolves.next_le next_le, evolves.scopes, evolves.orphans⟩

theorem owns_inner (evolves : old.Evolves may new) {stamp inner : Stamp} (owned : old.Owns stamp)
    {elements : List Value} (found : new.array? stamp = some elements)
    (below : inner ∈ Value.stampsAll elements) : old.Owns inner := by
  obtain ⟨added, orphansEq, addedOwned⟩ := evolves.orphans
  have held := Value.findIn?_stamps found below
  change inner ∈ Value.stampsAll new.held at held
  rw [stampsAll_held, List.mem_append, orphansEq, Value.stampsAll_append, List.mem_append] at held
  rcases held with inScopes | inAdded | inOld
  · exact evolves.scopes.stamps inScopes
  · exact addedOwned inner inAdded
  · -- an old orphan would hold the outer array as well
    obtain ⟨value, member, within⟩ := Value.mem_stampsAll.mp inOld
    have holder : value ∈ new.held := by
      rw [Machine.held, orphansEq]
      exact List.mem_append_right _ (List.mem_append_right _ member)
    have outer := Value.holds_outer evolves.after.once found below holder within
    exact absurd (Value.mem_stampsAll.mpr ⟨value, member, outer⟩)
      (evolves.before.notMem_orphans owned)

theorem modifyArray (evolves : old.Evolves may new) (dropped : List Value)
    {stamp next : Stamp} {change : List Value → List Value} {elements : List Value}
    {fresh : List Stamp} (owned : old.Owns stamp)
    (holds : new.scopes.Holds stamp (fun name flag => may name ∧ flag = false))
    (found : new.array? stamp = some elements) (next_le : new.next ≤ next)
    (fresh_nodup : fresh.Nodup) (unused : ∀ stamp ∈ fresh, new.next ≤ stamp ∧ stamp < next)
    (adds : Value.AddsOnly (· ∈ fresh) change) (within : ∀ value ∈ dropped, value ∈ elements)
    (exchange : (Value.stampsAll (change elements) ++ Value.stampsAll dropped).Perm
      (Value.stampsAll elements ++ fresh)) :
    old.Evolves may (Machine.modifyArray stamp change
      { new with next, orphans := dropped ++ new.orphans }) := by
  have addsNew : Value.AddsOnly (new.next ≤ ·) change := fun elements stamp member =>
    (adds elements stamp member).imp_right fun inFresh => (unused stamp inFresh).1
  have droppedInner : ∀ {inner}, inner ∈ Value.stampsAll dropped →
      inner ∈ Value.stampsAll elements := by
    intro inner member
    obtain ⟨value, inDropped, inValue⟩ := Value.mem_stampsAll.mp member
    exact Value.mem_stampsAll.mpr ⟨value, within value inDropped, inValue⟩
  -- what is dropped lies in the array, so the change passes it by
  have droppedKept : Value.modifyAll stamp change dropped = dropped :=
    Value.modifyAll_of_notMem change fun member =>
      Value.notMem_of_findIn? evolves.after.once found (droppedInner member)
  obtain ⟨added, orphansEq, addedOwned⟩ := evolves.orphans
  refine ⟨evolves.before, evolves.after.extend fresh_nodup unused next_le ?_,
    Nat.le_trans evolves.next_le next_le,
    evolves.scopes.trans evolves.next_le (Chain.modified_evolved addsNew holds),
    dropped ++ Value.modifyAll stamp change added, ?_, ?_⟩
  · obtain ⟨frame, _, before, after⟩ := Value.modifyAll_perm evolves.after.once found
    have afterwards := after change
    rw [held_modifyArray]
    simp only [Machine.held, modifyAll_append, droppedKept] at before afterwards ⊢
    apply List.perm_iff_count.mpr
    intro counted
    have beforeCount := before.count_eq counted
    have afterCount := afterwards.count_eq counted
    have exchangeCount := exchange.count_eq counted
    simp only [Value.stampsAll_append, List.count_append] at beforeCount afterCount exchangeCount ⊢
    omega
  · have missing := evolves.before.notMem_orphans owned
    simp only [Machine.modifyArray, orphansEq, modifyAll_append, droppedKept,
      Value.modifyAll_of_notMem change missing, List.append_assoc]
  · intro inner member
    rw [Value.stampsAll_append, List.mem_append] at member
    rcases member with inDropped | inAdded
    · exact evolves.owns_inner owned found (droppedInner inDropped)
    · rcases Value.modifyAll_stamps addsNew stamp added inAdded with before | new
      · exact addedOwned inner before
      · exact .inr (Nat.le_trans evolves.next_le new)

theorem set (evolves : old.Evolves may new) {name : Text} {binding : Binding Value}
    {value : Value} {next : Stamp} (found : new.scopes.find? name = some binding)
    (free : binding.constant = false) (granted : may name) (next_le : new.next ≤ next)
    (fresh_nodup : value.stamps.Nodup)
    (unused : ∀ stamp ∈ value.stamps, new.next ≤ stamp ∧ stamp < next) :
    old.Evolves may { new with
      next
      orphans := binding.value :: new.orphans
      scopes := new.scopes.set name value } := by
  obtain ⟨added, orphansEq, addedOwned⟩ := evolves.orphans
  refine ⟨evolves.before, evolves.after.extend fresh_nodup unused next_le ?_,
    Nat.le_trans evolves.next_le next_le, evolves.scopes.trans evolves.next_le ?_,
    binding.value :: added, ?_, ?_⟩
  · apply List.perm_iff_count.mpr
    intro counted
    have setCount := (Chain.set_perm value found).count_eq counted
    simp only [Machine.held, Value.stampsAll_append, Value.stampsAll_cons, List.count_append]
      at setCount ⊢
    omega
  · exact Chain.set_evolved found free granted fun stamp held => (unused stamp held).1
  · rw [orphansEq, List.cons_append]
  · intro stamp member
    rw [Value.stampsAll_cons, List.mem_append] at member
    rcases member with replaced | inAdded
    · exact evolves.owns (.inl (Chain.mem_stamps_of_find? found replaced))
    · exact addedOwned stamp inAdded

end Evolves

namespace Frees

variable {may : Text → Prop} {old middle new : Machine} {stamps : List Stamp}

theorem nil (old new : Machine) : old.Frees new [] :=
  ⟨List.nodup_nil, by simp, by simp, by simp⟩

theorem later (freed : old.Frees middle stamps) (evolves : middle.Evolves may new) :
    old.Frees new stamps := by
  refine ⟨freed.once, ?_, ?_, freed.owned⟩
  · exact fun stamp member => Nat.lt_of_lt_of_le (freed.below stamp member) evolves.next_le
  · intro stamp member held
    rcases evolves.scopes.stamps held with before | unused
    · exact freed.free stamp member before
    · exact Nat.not_le.mpr (freed.below stamp member) unused

theorem earlier (evolves : old.Evolves may middle) (freed : middle.Frees new stamps) :
    old.Frees new stamps :=
  ⟨freed.once, freed.below, freed.free, fun stamp member => evolves.owns (freed.owned stamp member)⟩

theorem append {first second : List Stamp} (freed : old.Frees middle first)
    (evolves : old.Evolves may middle) (after : middle.Evolves may new)
    (freedLater : middle.Frees new second) : old.Frees new (first ++ second) := by
  have firstLater := freed.later after
  have secondEarlier := freedLater.earlier evolves
  refine ⟨List.nodup_append.mpr ⟨freed.once, freedLater.once, ?_⟩, ?_, ?_, ?_⟩
  · intro stamp inFirst other inSecond same
    subst same
    rcases freedLater.owned stamp inSecond with held | unused
    · exact freed.free stamp inFirst held
    · exact Nat.not_le.mpr (freed.below stamp inFirst) unused
  · exact fun stamp member => (List.mem_append.mp member).elim (firstLater.below stamp)
      (secondEarlier.below stamp)
  · exact fun stamp member => (List.mem_append.mp member).elim (firstLater.free stamp)
      (secondEarlier.free stamp)
  · exact fun stamp member => (List.mem_append.mp member).elim (firstLater.owned stamp)
      (secondEarlier.owned stamp)

theorem of_orphan (evolves : old.Evolves may new) {value : Value} (orphaned : value ∈ new.orphans)
    (owned : ∀ stamp ∈ value.stamps, old.Owns stamp) : old.Frees new value.stamps := by
  have once := evolves.after.once
  rw [stampsAll_held, List.nodup_append] at once
  have single := Value.stamps_sublist orphaned
  refine ⟨single.nodup once.2.1, ?_, ?_, owned⟩
  · intro stamp member
    apply evolves.after.below stamp
    rw [stampsAll_held]
    exact List.mem_append_right _ (single.subset member)
  · intro stamp member held
    exact once.2.2 stamp held stamp (single.subset member) rfl

end Frees

/-- An array that was reached through a variable: as long as a variable holds it, that is the
variable, which decides whether it may be changed. -/
structure Rooted (old new : Machine) (root : Text) (constant : Bool) (stamp : Stamp) : Prop where
  owned : old.Owns stamp
  below : stamp < new.next
  holds : new.scopes.Holds stamp (fun name flag => name = root ∧ flag = constant)

theorem Rooted.later {may : Text → Prop} {old middle new : Machine} {root : Text} {constant : Bool}
    {stamp : Stamp} (rooted : old.Rooted middle root constant stamp)
    (next_le : middle.next ≤ new.next)
    (scopes : middle.scopes.Evolved middle.next may new.scopes) :
    old.Rooted new root constant stamp :=
  ⟨rooted.owned, Nat.lt_of_lt_of_le rooted.below next_le, rooted.holds.later rooted.below scopes⟩

theorem Rooted.earlier {may : Text → Prop} {old middle new : Machine} {root : Text}
    {constant : Bool} {stamp : Stamp} (evolves : old.Evolves may middle)
    (rooted : middle.Rooted new root constant stamp) : old.Rooted new root constant stamp :=
  ⟨evolves.owns rooted.owned, rooted.below, rooted.holds⟩

theorem Rooted.inner {may : Text → Prop} {old new : Machine} {root : Text} {constant : Bool}
    {outer inner : Stamp} (rooted : old.Rooted new root constant outer)
    (evolves : old.Evolves may new) {elements : List Value}
    (found : new.array? outer = some elements) (within : inner ∈ Value.stampsAll elements) :
    old.Rooted new root constant inner := by
  refine ⟨evolves.owns_inner rooted.owned found within,
    evolves.after.below inner (Value.findIn?_stamps found within), rooted.holds.inward ?_⟩
  intro value member
  exact Value.holds_outer evolves.after.once found within (List.mem_append_left _ member)

end Machine

def Location.Sits (old new : Machine) (location : Location) : Prop :=
  match location.place with
  | .named name =>
      location.root = name ∧ ∀ binding, new.scopes.find? name = some binding →
        binding.constant = location.constant
  | .slot stamp _ => old.Rooted new location.root location.constant stamp

namespace Location

variable {may : Text → Prop} {old middle new : Machine} {location : Location}

theorem Sits.later (sits : location.Sits old middle) (next_le : middle.next ≤ new.next)
    (scopes : middle.scopes.Evolved middle.next may new.scopes) : location.Sits old new := by
  unfold Sits at sits ⊢
  split
  · next name place =>
      rw [place] at sits
      refine ⟨sits.1, fun binding found => ?_⟩
      obtain ⟨before, foundBefore, evolved⟩ := scopes.find? found
      exact evolved.constant.trans (sits.2 before foundBefore)
  · next stamp index place =>
      rw [place] at sits
      exact Machine.Rooted.later sits next_le scopes

theorem Sits.earlier (evolves : old.Evolves may middle) (sits : location.Sits middle new) :
    location.Sits old new := by
  unfold Sits at sits ⊢
  split
  · next name place =>
      rw [place] at sits
      exact sits
  · next stamp index place =>
      rw [place] at sits
      exact Machine.Rooted.earlier evolves sits

theorem Sits.load (sits : location.Sits old new) (evolves : old.Evolves may new) :
    Leads location.load new
      (fun value after => after = new ∧ ∀ stamp elements, value = .arr stamp elements →
        old.Rooted new location.root location.constant stamp ∧
          new.array? stamp = some elements)
      (fun _ after => after = new) := by
  obtain ⟨place, constant, root⟩ := location
  cases place with
  | named name =>
      rw [leads_load_named]
      refine ⟨rfl, fun stamp elements loaded => ?_⟩
      cases found : new.scopes.find? name with
      | none => rw [found] at loaded; cases loaded
      | some binding =>
          rw [found] at loaded
          change binding.value = .arr stamp elements at loaded
          have held : stamp ∈ binding.value.stamps := by
            rw [loaded, Value.stamps_arr]
            exact List.mem_cons_self
          have bound : stamp ∈ new.bound := Chain.mem_stamps_of_find? found held
          refine ⟨⟨evolves.owns (.inl bound), evolves.after.bound_lt bound, ?_⟩, ?_⟩
          · have holds := Chain.holds_of_find? evolves.after.bound_nodup found held
            exact holds.mono fun other flag here =>
              ⟨here.1.trans sits.1.symm, here.2.trans (sits.2 binding found)⟩
          · apply Value.findIn?_of_mem evolves.after.once
            rw [← loaded]
            exact List.mem_append_left _ (Chain.mem_values_of_find? found)
  | slot outer index =>
      rw [leads_load_slot]
      cases found : new.array? outer with
      | none => simp
      | some elements =>
          rw [Option.getD_some]
          cases here : elements[index]? with
          | none => rfl
          | some value =>
              refine ⟨rfl, fun stamp items loaded => ?_⟩
              subst loaded
              have member : Value.arr stamp items ∈ elements := List.mem_of_getElem? here
              have within : stamp ∈ Value.stampsAll elements :=
                Value.mem_stampsAll.mpr ⟨_, member, by simp⟩
              refine ⟨Machine.Rooted.inner sits evolves found within, ?_⟩
              exact Value.findIn?_inner evolves.after.once found
                (Value.findIn?_of_mem (Value.findIn?_nodup evolves.after.once found) member)

theorem Sits.store (sits : location.Sits old new) (evolves : old.Evolves may new)
    (granted : may location.root) (free : location.constant = false) (value : Value) :
    Leads (location.store value) new (fun _ after => old.Evolves may after)
      (fun _ after => old.Evolves may after) := by
  have advanced := evolves.advance (Value.le_copy_next new.next value)
  obtain ⟨place, constant, root⟩ := location
  cases place with
  | named name =>
      rw [leads_store_named]
      cases found : new.scopes.find? name with
      | none => exact advanced
      | some binding =>
          obtain ⟨same, flag⟩ := sits
          change root = name at same
          subst same
          have notConstant : binding.constant = false := (flag binding found).trans free
          dsimp only
          rw [if_neg (by simp [notConstant])]
          exact evolves.set found notConstant granted (Value.le_copy_next new.next value)
            (Value.copy_stamps_nodup new.next value) fun stamp => Value.mem_copy_stamps.mp
  | slot stamp index =>
      rw [leads_store_slot]
      cases found : new.array? stamp with
      | none => exact advanced
      | some elements =>
          rw [Option.getD_some]
          cases here : elements[index]? with
          | none => exact advanced
          | some old =>
              have rooted : Machine.Rooted _ new root constant stamp := sits
              refine evolves.modifyArray [old] rooted.owned ?_ found
                (Value.le_copy_next new.next value) (Value.copy_stamps_nodup new.next value)
                (fun stamp => Value.mem_copy_stamps.mp) (Value.addsOnly_set index _) ?_ ?_
              · apply rooted.holds.mono
                rintro name flag ⟨rfl, same⟩
                exact ⟨granted, same.trans free⟩
              · intro value member
                rw [List.mem_singleton.mp member]
                exact List.mem_of_getElem? here
              · simpa using Value.stampsAll_set_perm here _

end Location
end Rover
