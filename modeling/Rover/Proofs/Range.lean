import Rover.Proofs.Arithmetic
import Rover.Proofs.Sizes
import Rover.Proofs.Timeline

/-!
Machines without negative integers, and the actions that lead from one to another. A length is read
from arrays alone that are not too long for it.
-/

namespace Rover

/-- An integer that a source can spell. -/
def Value.InRange : Value → Prop
  | .int number => 0 ≤ number.toInt ∧ number.toInt ≤ 2 ^ 63 - 1
  | _ => True

def Value.Sized (value : Value) : Prop :=
  ∀ stamp elements, value = .arr stamp elements → elements.length < 2 ^ 63

def Machine.InRange (machine : Machine) : Prop :=
  Value.EachIn Value.InRange machine.held

namespace Moment

/-- No variable has a negative integer at any depth, nor does the value that was just computed. -/
structure InRange (moment : Moment) : Prop where
  bound : Value.EachIn Value.InRange moment.machine.scopes.values
  evaluated : ∀ value, moment.act = .evaluated value → value.Each Value.InRange

def Sized (moment : Moment) : Prop :=
  ∀ value, moment.act = .evaluated value → value.Sized

end Moment

instance (value : Value) : Decidable value.Sized :=
  match value with
  | .arr _ elements =>
      decidable_of_iff (elements.length < 2 ^ 63)
        ⟨fun fits _ _ same => by cases same; exact fits, fun sized => sized _ _ rfl⟩
  | .absent | .nothing | .int _ | .float _ | .str _ => isTrue nofun

instance (moment : Moment) : Decidable moment.Sized :=
  match moment with
  | ⟨.evaluated value, _⟩ =>
      decidable_of_iff value.Sized
        ⟨fun sized _ same => by cases same; exact sized, fun sized => sized _ rfl⟩
  | ⟨.ready, _⟩ | ⟨.located _, _⟩ | ⟨.stopped _, _⟩ | ⟨.opened, _⟩ | ⟨.closed, _⟩
  | ⟨.defined _, _⟩ => isTrue nofun

namespace Value

theorem inRange_of_nonneg {number : Int64} (nonneg : 0 ≤ number.toInt) : (int number).InRange :=
  ⟨nonneg, Int.le_sub_one_of_lt number.toInt_lt⟩

theorem inRange_fold (number : Int64) : (int (fold number)).InRange :=
  inRange_of_nonneg (fold_folded number).1

theorem inRange_ofBool (truth : Bool) : (ofBool truth).InRange := by
  cases truth with
  | false => exact inRange_of_nonneg (by decide)
  | true => exact inRange_of_nonneg (by decide)

theorem inRange_length {elements : List Value} (sized : elements.length < 2 ^ 63) :
    (int (Int64.ofNat elements.length)).InRange := by
  apply inRange_of_nonneg
  rw [Int64.toInt_ofNat_of_lt sized]
  exact Int.natCast_nonneg _

end Value

namespace Machine

variable {machine : Machine}

theorem new_inRange : Machine.new.InRange :=
  trivial

namespace InRange

theorem of_held {other : Machine} (inRange : machine.InRange) (same : other.held = machine.held) :
    other.InRange := by
  rw [InRange, same]
  exact inRange

theorem bound (inRange : machine.InRange) : Value.EachIn Value.InRange machine.scopes.values :=
  inRange.subset (List.subset_append_left _ _)

theorem orphans (inRange : machine.InRange) : Value.EachIn Value.InRange machine.orphans :=
  inRange.subset (List.subset_append_right _ _)

theorem of_parts {chain : Chain Value} {orphans : List Value} {next : Stamp}
    {errors : Array RuntimeError} {events : Array Event}
    (bound : Value.EachIn Value.InRange chain.values) (loose : Value.EachIn Value.InRange orphans) :
    Machine.InRange ⟨chain, orphans, next, errors, events⟩ :=
  bound.append loose

theorem binding (inRange : machine.InRange) {name : Text} {binding : Binding Value}
    (found : machine.scopes.find? name = some binding) : binding.value.Each Value.InRange :=
  Value.eachIn_iff.mp inRange.bound _ (Chain.mem_values_of_find? found)

theorem array (inRange : machine.InRange) {stamp : Stamp} {elements : List Value}
    (found : machine.array? stamp = some elements) : Value.EachIn Value.InRange elements :=
  Value.EachIn.findIn? inRange found

theorem element (inRange : machine.InRange) {stamp : Stamp} {value : Value}
    (member : value ∈ (machine.array? stamp).getD []) : value.Each Value.InRange := by
  cases found : machine.array? stamp with
  | none =>
      rw [found] at member
      cases member
  | some elements =>
      rw [found] at member
      exact Value.eachIn_iff.mp (inRange.array found) value member

theorem modifyArray (inRange : machine.InRange) (stamp : Stamp) {change : List Value → List Value}
    (keeps : ∀ {elements}, Value.EachIn Value.InRange elements →
      Value.EachIn Value.InRange (change elements)) :
    (machine.modifyArray stamp change).InRange := by
  rw [InRange, held_modifyArray]
  exact inRange.modifyAll keeps stamp

theorem clear (inRange : machine.InRange) : InRange { machine with orphans := [] } :=
  inRange.subset machine.held_clear

theorem enter (inRange : machine.InRange) :
    InRange { machine with scopes := [] :: machine.scopes } :=
  inRange

theorem narrow (inRange : machine.InRange) {chain : Chain Value} (subset : chain ⊆ machine.scopes) :
    InRange { machine with scopes := chain } :=
  inRange.subset (machine.held_narrow subset)

theorem define (inRange : machine.InRange) {value : Value} (new : value.Each Value.InRange)
    (name : Text) (constant : Bool) :
    InRange { machine with scopes := machine.scopes.define name ⟨value, constant⟩ } := by
  have both : Value.EachIn Value.InRange (value :: machine.held) := ⟨new, inRange⟩
  exact both.subset (machine.held_define name ⟨value, constant⟩)

end InRange
end Machine

section Stays

variable {α β : Type} {good : α → Prop} {final : β → Prop}

def Stays (good : α → Prop) (action : Eval α) : Prop :=
  ∀ machine : Machine, machine.InRange → Leads action machine
    (fun value after => after.InRange ∧ good value) fun _ after => after.InRange

theorem stays_pure {value : α} (holds : good value) : Stays good (pure value) :=
  fun _ inRange => ⟨inRange, holds⟩

theorem stays_throw (stop : Stop) : Stays good (throw stop : Eval α) :=
  fun _ inRange => inRange

theorem stays_get : Stays Machine.InRange (get : Eval Machine) :=
  fun _ inRange => ⟨inRange, inRange⟩

theorem Stays.bind {action : Eval α} {next : α → Eval β} (first : Stays good action)
    (second : ∀ value, good value → Stays final (next value)) : Stays final (action >>= next) := by
  intro machine inRange
  rw [leads_bind]
  exact (first machine inRange).mono
    (fun value after reached => second value reached.2 after reached.1)
    fun _ _ stopped => stopped

theorem stays_kindOf (value : Value) : Stays (fun _ => True) (Machine.kindOf value) := by
  unfold Machine.kindOf
  split
  · exact stays_pure trivial
  · exact stays_throw _

theorem stays_write (writer : Option Writer) (bytes : Text) :
    Stays (fun _ => True) (Machine.write writer bytes) := by
  unfold Machine.write
  split
  · split
    · exact stays_pure trivial
    · exact fun _ inRange => ⟨inRange, trivial⟩
  · exact stays_pure trivial

theorem stays_report (options : Options) (error : RuntimeError) :
    Stays (Value.Each Value.InRange) (Machine.report options error) := by
  have recorded : Stays (fun _ => True)
      (modify fun machine => { machine with errors := machine.errors.push error } : Eval PUnit) :=
    fun _ inRange => ⟨inRange, trivial⟩
  have shown (bytes : Text) : Stays (Value.Each Value.InRange) (do
      Machine.write options.diagnostics bytes
      return Value.nothing) :=
    (stays_write options.diagnostics bytes).bind fun _ _ => stays_pure trivial
  refine recorded.bind fun _ _ => ?_
  split
  · have stops : Stays (fun _ : PUnit => True) (throw (.error error)) := stays_throw _
    exact stops.bind fun _ _ => shown _
  · exact shown _

theorem stays_fail (options : Options) (fault : Fault) (pos : Pos) :
    Stays (Value.Each Value.InRange) (Machine.fail options fault pos) :=
  stays_report options ⟨fault, pos⟩

theorem stays_copy {value : Value} (each : value.Each Value.InRange) :
    Stays (Value.Each Value.InRange) (Machine.copy value) :=
  fun machine inRange => ⟨inRange, each.copy machine.next⟩

theorem stays_newArray {elements : List Value} (each : Value.EachIn Value.InRange elements) :
    Stays (Value.Each Value.InRange) (Machine.newArray elements) :=
  fun _ inRange => ⟨inRange, each⟩

theorem stays_orphan {value : Value} (each : value.Each Value.InRange) :
    Stays (fun _ => True) (Machine.orphan value) :=
  fun _ inRange => ⟨.of_parts inRange.bound ⟨each, inRange.orphans⟩, trivial⟩

theorem stays_modifyArray (stamp : Stamp) {change : List Value → List Value}
    (keeps : ∀ {elements}, Value.EachIn Value.InRange elements →
      Value.EachIn Value.InRange (change elements)) :
    Stays (fun _ => True) (modify (Machine.modifyArray stamp change) : Eval PUnit) :=
  fun _ inRange => ⟨inRange.modifyArray stamp keeps, trivial⟩

theorem stays_load (location : Location) : Stays (Value.Each Value.InRange) location.load := by
  intro machine inRange
  obtain ⟨place, constant, root⟩ := location
  cases place with
  | named name =>
      rw [leads_load_named]
      refine ⟨inRange, ?_⟩
      cases found : machine.scopes.find? name with
      | none => exact trivial
      | some binding => exact inRange.binding found
  | slot stamp index =>
      rw [leads_load_slot]
      split
      · next value here => exact ⟨inRange, inRange.element (List.mem_of_getElem? here)⟩
      · exact inRange

theorem stays_store (location : Location) {value : Value} (each : value.Each Value.InRange) :
    Stays (fun _ => True) (location.store value) := by
  intro machine inRange
  have copied := each.copy machine.next
  obtain ⟨place, constant, root⟩ := location
  cases place with
  | named name =>
      rw [leads_store_named]
      split
      · exact ⟨inRange, trivial⟩
      · next binding found =>
          split
          · exact ⟨inRange, trivial⟩
          · have both : Value.EachIn Value.InRange ((value.copy machine.next).1 :: machine.held) :=
              ⟨copied, inRange⟩
            exact ⟨both.subset (Machine.held_set found _ _), trivial⟩
  | slot stamp index =>
      rw [leads_store_slot]
      split
      · next old here =>
          have loose := inRange.element (List.mem_of_getElem? here)
          have orphaned : Machine.InRange { machine with
              next := (value.copy machine.next).2
              orphans := old :: machine.orphans } :=
            .of_parts inRange.bound ⟨loose, inRange.orphans⟩
          refine ⟨orphaned.modifyArray stamp fun {elements} each => ?_, trivial⟩
          have both : Value.EachIn Value.InRange ((value.copy machine.next).1 :: elements) :=
            ⟨copied, each⟩
          exact both.subset fun other member =>
            List.mem_cons.mpr ((List.mem_or_eq_of_mem_set member).symm)
      · exact inRange

end Stays

section Ranges

variable {α β : Type} {good : α → Prop} {final : β → Prop} {action : Eval α}
  {moments : Machine → List Moment}

/-- An action leads from a machine in range to another, its value is good, and all its moments are
in range, provided that none of them shows an array that is too long. -/
def Ranges (good : α → Prop) (action : Eval α) (moments : Machine → List Moment) : Prop :=
  ∀ machine : Machine, machine.InRange → (∀ moment ∈ moments machine, moment.Sized) →
    (∀ moment ∈ moments machine, moment.InRange) ∧
      Leads action machine (fun value after => after.InRange ∧ good value)
        fun _ after => after.InRange

theorem Stays.ranges (stays : Stays good action) : Ranges good action fun _ => [] :=
  fun machine inRange _ => ⟨List.forall_mem_nil _, stays machine inRange⟩

theorem Ranges.congr {others : Machine → List Moment} (ranges : Ranges good action moments)
    (same : ∀ machine, moments machine = others machine) : Ranges good action others := by
  intro machine
  rw [← same machine]
  exact ranges machine

theorem Ranges.bind {next : α → Eval β} {others : α → Machine → List Moment}
    (first : Ranges good action moments)
    (second : ∀ value, good value → Ranges final (next value) (others value)) :
    Ranges final (action >>= next) fun machine =>
      moments machine ++ onward action others machine := by
  intro machine inRange sized
  obtain ⟨sizedFirst, sizedOnward⟩ := List.forall_mem_append.mp sized
  obtain ⟨passed, leads⟩ := first machine inRange sizedFirst
  rw [leads_bind]
  cases result : action machine with
  | ok value after =>
      obtain ⟨reached, holds⟩ := leads.of_ok result
      rw [onward_of_ok result] at sizedOnward
      obtain ⟨passedOnward, ends⟩ := second value holds after reached sizedOnward
      rw [leads_iff_of_ok result]
      dsimp only
      rw [onward_of_ok result]
      exact ⟨List.forall_mem_append.mpr ⟨passed, passedOnward⟩, ends⟩
  | error stop after =>
      rw [leads_iff_of_error result]
      dsimp only
      rw [onward_of_error result, List.append_nil]
      exact ⟨passed, leads.of_error result⟩

theorem Ranges.seq {next : α → Eval β} (first : Ranges good action moments)
    (second : ∀ value, good value → Stays final (next value)) :
    Ranges final (action >>= next) moments :=
  (first.bind fun value holds => (second value holds).ranges).congr fun machine => by
    rw [onward_nil, List.append_nil]

theorem Stays.andThen {next : α → Eval β} {others : α → Machine → List Moment}
    (first : Stays good action)
    (second : ∀ value, good value → Ranges final (next value) (others value)) :
    Ranges final (action >>= next) (onward action others) :=
  (first.ranges.bind second).congr fun _ => List.nil_append _

/-- The end of an action is a moment as well, from which more may be known about the value. -/
theorem Ranges.close {act : α → Act} {known : α → Prop} (ranges : Ranges good action moments)
    (shows : ∀ value shown, good value → act value = .evaluated shown → shown.Each Value.InRange)
    (knows : ∀ value machine, good value → Moment.Sized ⟨act value, machine⟩ → known value) :
    Ranges known action fun machine => moments machine ++ ending act action machine := by
  intro machine inRange sized
  obtain ⟨sizedFirst, sizedLast⟩ := List.forall_mem_append.mp sized
  obtain ⟨passed, leads⟩ := ranges machine inRange sizedFirst
  cases result : action machine with
  | ok value after =>
      obtain ⟨reached, holds⟩ := leads.of_ok result
      rw [ending_of_ok result, List.forall_mem_singleton] at sizedLast
      rw [leads_iff_of_ok result]
      dsimp only
      rw [ending_of_ok result]
      refine ⟨List.forall_mem_append.mpr ⟨passed, List.forall_mem_singleton.mpr ?_⟩,
        reached, knows value after holds sizedLast⟩
      exact ⟨reached.bound, fun shown same => shows value shown holds same⟩
  | error stop after =>
      have reached := leads.of_error result
      rw [leads_iff_of_error result]
      dsimp only
      rw [ending_of_error result]
      refine ⟨List.forall_mem_append.mpr ⟨passed, List.forall_mem_singleton.mpr ?_⟩, reached⟩
      exact ⟨reached.bound, nofun⟩

end Ranges

end Rover
