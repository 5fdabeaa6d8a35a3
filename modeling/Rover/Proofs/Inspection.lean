import Rover.Proofs.Quoting
import Rover.Value

/-!
What shows a value in full tells the value. The first character tells the kind of a value, strings
and arrays end with a character of their own, and an integer ends where its digits do. So the values
in a list can be told one after another, whatever is in their strings.
-/

namespace Rover
namespace Value

def decimal (number : Int) : List Char :=
  (if number < 0 then ['-'] else []) ++ Nat.toDigits 10 number.natAbs

mutual

/-- A value and how it can be written. -/
inductive Written : Value → List Char → Prop
  | nothing : Written nothing "<no value>".toList
  | int {number : Int64} : Written (int number) (decimal number.toInt)
  | str {value : Text} {parts : List (List Char)}
      (escaped : List.Forall₂ Text.Escaped value.pieces parts) :
      Written (str value) ('"' :: parts.flatten ++ ['"'])
  | arr {stamp : Stamp} {elements : List Value} {inner : List Char}
      (each : WrittenAll elements inner) : Written (arr stamp elements) ('[' :: inner ++ [']'])

inductive WrittenAll : List Value → List Char → Prop
  | none : WrittenAll [] []
  | last {value : Value} {chars : List Char} (written : Written value chars) :
      WrittenAll [value] chars
  | more {value second : Value} {others : List Value} {chars inner : List Char}
      (written : Written value chars) (each : WrittenAll (second :: others) inner) :
      WrittenAll (value :: second :: others) (chars ++ ',' :: ' ' :: inner)

end

theorem toDigits_injective {first second : Nat}
    (same : Nat.toDigits 10 first = Nat.toDigits 10 second) : first = second := by
  have numbers := congrArg (Nat.ofDigitChars 10 · 0) same
  simpa only [Nat.ofDigitChars_ten_toDigits] using numbers

theorem takeWhile_toDigits (number : Nat) {rest : List Char}
    (ends : ∀ char ∈ rest.head?, char.isDigit = false) :
    (Nat.toDigits 10 number ++ rest).takeWhile Char.isDigit = Nat.toDigits 10 number := by
  have all : ∀ char ∈ Nat.toDigits 10 number, char.isDigit = true :=
    fun char member => Nat.isDigit_of_mem_toDigits (by decide) (by decide) member
  have stops : rest.takeWhile Char.isDigit = [] := by
    cases rest with
    | nil => rfl
    | cons char others => exact List.takeWhile_cons_of_neg (by rw [ends char rfl]; decide)
  rw [List.takeWhile_append_of_pos all, stops, List.append_nil]

theorem toDigits_unique {first second : Nat} {rest rest' : List Char}
    (ends : ∀ char ∈ rest.head?, char.isDigit = false)
    (ends' : ∀ char ∈ rest'.head?, char.isDigit = false)
    (same : Nat.toDigits 10 first ++ rest = Nat.toDigits 10 second ++ rest') :
    first = second ∧ rest = rest' := by
  have digits := congrArg (List.takeWhile Char.isDigit) same
  rw [takeWhile_toDigits first ends, takeWhile_toDigits second ends'] at digits
  obtain rfl := toDigits_injective digits
  exact ⟨rfl, List.append_cancel_left same⟩

theorem toDigits_starts (number : Nat) :
    ∃ first more, Nat.toDigits 10 number = first :: more ∧ first.isDigit = true := by
  obtain ⟨first, more, same⟩ :=
    List.exists_cons_of_ne_nil (Nat.toDigits_ne_nil (b := 10) (n := number))
  refine ⟨first, more, same,
    Nat.isDigit_of_mem_toDigits (by decide) (Nat.le_refl 10) (n := number) ?_⟩
  rw [same]
  exact List.mem_cons_self

theorem decimal_starts (number : Int) :
    ∃ first more, decimal number = first :: more ∧ (first.isDigit = true ∨ first = '-') := by
  unfold decimal
  split
  · exact ⟨'-', _, rfl, .inr rfl⟩
  · obtain ⟨first, more, same, digit⟩ := toDigits_starts number.natAbs
    exact ⟨first, more, same, .inl digit⟩

theorem decimal_unique {number number' : Int} {rest rest' : List Char}
    (ends : ∀ char ∈ rest.head?, char.isDigit = false)
    (ends' : ∀ char ∈ rest'.head?, char.isDigit = false)
    (same : decimal number ++ rest = decimal number' ++ rest') :
    number = number' ∧ rest = rest' := by
  have signed (one other : Nat) (behind behind' : List Char) :
      '-' :: Nat.toDigits 10 one ++ behind ≠ Nat.toDigits 10 other ++ behind' := by
    obtain ⟨first, more, starts, digit⟩ := toDigits_starts other
    rw [starts]
    intro equal
    obtain rfl := (List.cons.inj equal).1
    exact absurd digit (by decide)
  unfold decimal at same
  by_cases negative : number < 0 <;> by_cases negative' : number' < 0
  · rw [if_pos negative, if_pos negative'] at same
    obtain ⟨sizes, behind⟩ := toDigits_unique ends ends' (List.cons.inj same).2
    exact ⟨by omega, behind⟩
  · rw [if_pos negative, if_neg negative'] at same
    exact absurd same (signed _ _ _ _)
  · rw [if_neg negative, if_pos negative'] at same
    exact absurd same.symm (signed _ _ _ _)
  · rw [if_neg negative, if_neg negative'] at same
    obtain ⟨sizes, behind⟩ := toDigits_unique ends ends' same
    exact ⟨by omega, behind⟩

def startingKind (first : Char) : Option ValueKind :=
  if first = '<' then some .nothing
  else if first = '"' then some .string
  else if first = '[' then some .array
  else if first.isDigit = true ∨ first = '-' then some .integer
  else none

theorem Written.starts {value : Value} {chars : List Char} (written : Written value chars) :
    ∃ first more, chars = first :: more ∧ startingKind first = value.kind? ∧
      startingKind first ≠ none := by
  cases written with
  | nothing => exact ⟨'<', _, rfl, by decide, by decide⟩
  | @int number =>
      obtain ⟨first, more, same, starts⟩ := decimal_starts number.toInt
      have kind : startingKind first = some .integer := by
        have others : first ≠ '<' ∧ first ≠ '"' ∧ first ≠ '[' := by
          refine ⟨?_, ?_, ?_⟩ <;> rintro rfl <;> exact absurd starts (by decide)
        rw [startingKind, if_neg others.1, if_neg others.2.1, if_neg others.2.2, if_pos starts]
      exact ⟨first, more, same, kind, by rw [kind]; exact nofun⟩
  | str _ => exact ⟨'"', _, rfl, rfl, by decide⟩
  | arr _ => exact ⟨'[', _, rfl, rfl, by decide⟩

theorem Written.kind_unique {value value' : Value} {chars chars' rest rest' : List Char}
    (written : Written value chars) (again : Written value' chars')
    (same : chars ++ rest = chars' ++ rest') : value.kind? = value'.kind? := by
  obtain ⟨first, more, rfl, kind, _⟩ := written.starts
  obtain ⟨first', more', rfl, kind', _⟩ := again.starts
  rw [← kind, ← kind', (List.cons.inj same).1]

theorem Written.not_closing {value : Value} {chars rest rest' : List Char}
    (written : Written value chars) : chars ++ rest ≠ ']' :: rest' := by
  obtain ⟨first, more, rfl, _, known⟩ := written.starts
  intro same
  rw [(List.cons.inj same).1] at known
  exact known (by decide)

def Ends (rest : List Char) : Prop :=
  ∀ char ∈ rest.head?, char.isDigit = false

theorem ends_cons {char : Char} (rest : List Char) (other : char.isDigit = false) :
    Ends (char :: rest) := by
  rintro _ ⟨⟩
  exact other

-- The induction is on the first of two values: the first character tells that the other is of the
-- same kind. Only an integer has to know what stands behind it; in an array that is a comma or a
-- bracket.

mutual

theorem written_unique : (value value' : Value) → {chars chars' rest rest' : List Char} →
    Written value chars → Written value' chars' → Ends rest → Ends rest' →
    chars ++ rest = chars' ++ rest' → value.deep = value'.deep ∧ rest = rest'
  | .nothing, value', chars, chars', rest, rest', written, again, ends, ends', same => by
      have kinds := written.kind_unique again same
      cases again with
      | nothing =>
          cases written
          exact ⟨rfl, List.append_cancel_left same⟩
      | int | str | arr => cases kinds
  | .int number, value', chars, chars', rest, rest', written, again, ends, ends', same => by
      have kinds := written.kind_unique again same
      cases again with
      | int =>
          cases written
          obtain ⟨numbers, behind⟩ := decimal_unique ends ends' same
          rw [Int64.toInt_inj.mp numbers]
          exact ⟨rfl, behind⟩
      | nothing | str | arr => cases kinds
  | .str value, value', chars, chars', rest, rest', written, again, ends, ends', same => by
      have kinds := written.kind_unique again same
      cases again with
      | str escaped' =>
          cases written with
          | str escaped =>
              simp only [List.cons_append, List.append_assoc, List.nil_append] at same
              obtain ⟨pieces, behind⟩ := Text.pieces_unique escaped escaped' (List.cons.inj same).2
              rw [Text.pieces_injective pieces]
              exact ⟨rfl, behind⟩
      | nothing | int | arr => cases kinds
  | .arr stamp elements, value', chars, chars', rest, rest', written, again, ends, ends', same => by
      have kinds := written.kind_unique again same
      cases again with
      | arr each' =>
          cases written with
          | arr each =>
              simp only [List.cons_append, List.append_assoc, List.nil_append] at same
              obtain ⟨elementsSame, behind⟩ := writtenAll_unique elements _ each each'
                (List.cons.inj same).2
              refine ⟨?_, behind⟩
              rw [deep, deep, elementsSame]
      | nothing | int | str => cases kinds
  | .float _, _, _, _, _, _, written, _, _, _, _ => by cases written
  | .absent, _, _, _, _, _, written, _, _, _, _ => by cases written

theorem writtenAll_unique : (values values' : List Value) → {inner inner' rest rest' : List Char} →
    WrittenAll values inner → WrittenAll values' inner' →
    inner ++ ']' :: rest = inner' ++ ']' :: rest' →
    deepAll values = deepAll values' ∧ rest = rest'
  | [], values', inner, inner', rest, rest', each, each', same => by
      cases each
      cases each' with
      | none => exact ⟨rfl, (List.cons.inj same).2⟩
      | last written => exact absurd same.symm written.not_closing
      | more written _ =>
          rw [List.append_assoc] at same
          exact absurd same.symm written.not_closing
  | [value], values', inner, inner', rest, rest', each, each', same => by
      have closes (rest : List Char) : Ends (']' :: rest) := ends_cons rest (by decide)
      cases each with
      | last written =>
          cases each' with
          | none => exact absurd same written.not_closing
          | last written' =>
              obtain ⟨first, behind⟩ := written_unique value _ written written' (closes _)
                (closes _) same
              exact ⟨by simp only [deepAll, first], (List.cons.inj behind).2⟩
          | more written' _ =>
              rw [List.append_assoc] at same
              obtain ⟨_, behind⟩ := written_unique value _ written written' (closes _)
                (ends_cons _ (by decide)) same
              exact absurd (List.cons.inj behind).1 (by decide)
  | value :: second :: others, values', inner, inner', rest, rest', each, each', same => by
      have goesOn (rest : List Char) : Ends (',' :: rest) := ends_cons rest (by decide)
      cases each with
      | more written each =>
          rw [List.append_assoc] at same
          cases each' with
          | none => exact absurd same written.not_closing
          | last written' =>
              obtain ⟨_, behind⟩ := written_unique value _ written written' (goesOn _)
                (ends_cons _ (by decide)) same
              exact absurd (List.cons.inj behind).1 (by decide)
          | more written' each' =>
              rw [List.append_assoc] at same
              obtain ⟨first, behind⟩ := written_unique value _ written written' (goesOn _)
                (goesOn _) same
              obtain ⟨later, after⟩ := writtenAll_unique (second :: others) _ each each'
                (List.cons.inj (List.cons.inj behind).2).2
              exact ⟨congrArg₂ List.cons first later, after⟩

end

mutual

/-- Values without floats and absent values in them. -/
def Plain : Value → Prop
  | nothing | int _ | str _ => True
  | arr _ elements => PlainAll elements
  | float _ | absent => False

def PlainAll : List Value → Prop
  | [] => True
  | first :: rest => Plain first ∧ PlainAll rest

end

theorem ofInt_decimal (number : Int) : Text.ofInt number = Text.ofChars (decimal number) := by
  cases number with
  | ofNat size => rfl
  | negSucc size =>
      rw [decimal, if_pos (Int.negSucc_lt_zero size)]
      rfl

mutual

theorem written_inspect : (value : Value) → value.Plain →
    ∃ chars, value.inspect = Text.ofChars chars ∧ Written value chars
  | .nothing, _ => ⟨_, rfl, .nothing⟩
  | .int number, _ => ⟨_, ofInt_decimal number.toInt, .int⟩
  | .str value, _ => by
      obtain ⟨parts, escaped, quoted⟩ := Text.quoted_escaped value
      exact ⟨_, quoted, .str escaped⟩
  | .arr stamp elements, plain => by
      obtain ⟨inner, joined, each⟩ := writtenAll_inspect elements plain
      refine ⟨_, ?_, .arr each⟩
      rw [inspect, joined, Text.ofChars_append, Text.ofChars_cons]
      rfl
  | .float _, plain => plain.elim
  | .absent, plain => plain.elim

theorem writtenAll_inspect : (values : List Value) → PlainAll values →
    ∃ inner, Text.join (text ", ") (inspectAll values) = Text.ofChars inner ∧
      WrittenAll values inner
  | [], _ => ⟨[], rfl, .none⟩
  | [value], plain => by
      obtain ⟨chars, shown, written⟩ := written_inspect value plain.1
      exact ⟨chars, shown, .last written⟩
  | value :: second :: others, plain => by
      obtain ⟨chars, shown, written⟩ := written_inspect value plain.1
      obtain ⟨inner, joined, each⟩ := writtenAll_inspect (second :: others) plain.2
      refine ⟨_, ?_, .more written each⟩
      rw [inspectAll, inspectAll, Text.join, ← inspectAll, joined, shown, Text.ofChars_append,
        List.append_assoc]
      rfl

end

mutual

theorem inspect_deep : (value : Value) → value.deep.inspect = value.inspect
  | .arr stamp elements => by rw [deep, inspect, inspect, inspectAll_deepAll elements]
  | .absent | .nothing | .int _ | .float _ | .str _ => rfl

theorem inspectAll_deepAll : (values : List Value) → inspectAll (deepAll values) = inspectAll values
  | [] => rfl
  | first :: rest => by rw [deepAll, inspectAll, inspectAll, inspect_deep first,
    inspectAll_deepAll rest]

end

/-- Values shown alike have the same numbers, strings and arrays in them at the same places,
whichever characters strings show as they are. -/
theorem inspect_unambiguous {first second : Value} (plain : first.Plain) (plain' : second.Plain) :
    (∃ chars, first.inspect = Text.ofChars chars ∧ Written first chars) ∧
      (∀ chars, Written first chars → Written second chars → first.deep = second.deep) ∧
      (first.inspect = second.inspect ↔ first.deep = second.deep) := by
  have tells (chars : List Char) (written : Written first chars) (again : Written second chars) :
      first.deep = second.deep := by
    have alone : Ends [] := nofun
    exact (written_unique first second written again alone alone rfl).1
  refine ⟨written_inspect first plain, tells, fun same => ?_, fun same => ?_⟩
  · obtain ⟨chars, shown, written⟩ := written_inspect first plain
    obtain ⟨chars', shown', again⟩ := written_inspect second plain'
    obtain rfl := Text.ofChars_injective (shown.symm.trans (same.trans shown'))
    exact tells chars written again
  · rw [← inspect_deep first, ← inspect_deep second, same]

def lookalikes : Value × Value :=
  (arr 1 [arr 2 [str (text "a\", \"b"), nothing], int (-7)],
    arr 1 [arr 2 [str (text "a"), str (text "b"), nothing], int (-7)])

theorem inspect_lookalikes :
    lookalikes.1.Plain ∧ lookalikes.2.Plain ∧ lookalikes.1.inspect ≠ lookalikes.2.inspect ∧
      ((arr 9 [lookalikes.1]).inspect = (arr 3 [lookalikes.1]).inspect) := by
  have plain : lookalikes.1.Plain := by simp [lookalikes, Plain, PlainAll]
  have plain' : lookalikes.2.Plain := by simp [lookalikes, Plain, PlainAll]
  have listed (stamp : Stamp) : (arr stamp [lookalikes.1]).Plain := ⟨plain, trivial⟩
  refine ⟨plain, plain', fun same => ?_, ?_⟩
  · have equal := (inspect_unambiguous plain plain').2.2.mp same
    simp [lookalikes, deep, deepAll] at equal
  · exact (inspect_unambiguous (listed 9) (listed 3)).2.2.mpr rfl

end Value
end Rover
