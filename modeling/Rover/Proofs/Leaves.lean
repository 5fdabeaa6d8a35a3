import Rover.Value

namespace Rover
namespace Value

variable {holds : Value → Prop}

mutual

def Each (holds : Value → Prop) : Value → Prop
  | arr _ elements => EachIn holds elements
  | absent => holds absent
  | nothing => holds nothing
  | int number => holds (int number)
  | float number => holds (float number)
  | str value => holds (str value)

def EachIn (holds : Value → Prop) : List Value → Prop
  | [] => True
  | first :: rest => Each holds first ∧ EachIn holds rest

end

theorem eachIn_iff {values : List Value} :
    EachIn holds values ↔ ∀ value ∈ values, value.Each holds := by
  induction values with
  | nil => simp [EachIn]
  | cons first rest ih => simp [EachIn, ih]

theorem EachIn.subset {some all : List Value} (each : EachIn holds all) (subset : some ⊆ all) :
    EachIn holds some :=
  eachIn_iff.mpr fun value member => eachIn_iff.mp each value (subset member)

theorem EachIn.append {first second : List Value} (inFirst : EachIn holds first)
    (inSecond : EachIn holds second) : EachIn holds (first ++ second) :=
  eachIn_iff.mpr <| List.forall_mem_append.mpr ⟨eachIn_iff.mp inFirst, eachIn_iff.mp inSecond⟩

mutual

theorem Each.copy {value : Value} (each : value.Each holds) (next : Stamp) :
    (value.copy next).1.Each holds := by
  cases value with
  | arr stamp elements => exact EachIn.copyAll (show EachIn holds elements from each) (next + 1)
  | _ => exact each

theorem EachIn.copyAll {values : List Value} (each : EachIn holds values) (next : Stamp) :
    EachIn holds (copyAll next values).1 := by
  cases values with
  | nil => trivial
  | cons first rest => exact ⟨each.1.copy next, each.2.copyAll _⟩

end

mutual

theorem Each.find? {stamp : Stamp} {value : Value} {elements : List Value} (each : value.Each holds)
    (found : value.find? stamp = some elements) : EachIn holds elements := by
  cases value with
  | arr own items =>
      simp only [Value.find?] at found
      split at found
      · cases found
        exact each
      · exact EachIn.findIn? each found
  | _ => simp [Value.find?] at found

theorem EachIn.findIn? {stamp : Stamp} {values elements : List Value} (each : EachIn holds values)
    (found : findIn? stamp values = some elements) : EachIn holds elements := by
  cases values with
  | nil => simp [Value.findIn?] at found
  | cons first rest =>
      simp only [Value.findIn?] at found
      cases inFirst : first.find? stamp with
      | some items =>
          rw [inFirst] at found
          cases found
          exact each.1.find? inFirst
      | none =>
          rw [inFirst] at found
          exact each.2.findIn? found

end

mutual

theorem Each.modify {change : List Value → List Value}
    (keeps : ∀ {elements}, EachIn holds elements → EachIn holds (change elements)) {value : Value}
    (each : value.Each holds) (stamp : Stamp) : (value.modify stamp change).Each holds := by
  cases value with
  | arr own elements =>
      rw [Value.modify]
      split
      · exact keeps each
      · exact EachIn.modifyAll keeps each stamp
  | _ => exact each

theorem EachIn.modifyAll {change : List Value → List Value}
    (keeps : ∀ {elements}, EachIn holds elements → EachIn holds (change elements))
    {values : List Value} (each : EachIn holds values) (stamp : Stamp) :
    EachIn holds (modifyAll stamp change values) := by
  cases values with
  | nil => trivial
  | cons first rest => exact ⟨each.1.modify keeps stamp, each.2.modifyAll keeps stamp⟩

end

end Value
end Rover
