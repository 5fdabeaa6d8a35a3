import Rover.Yaml.Character

/-!
Timestamps: a date, or a date and a time of day. The time stands after a letter T and ends with its
zone, or it stands after blanks and has no zone.
-/

namespace Rover
namespace Yaml

def shortNumber? : List Char → Option (Nat × List Char)
  | first :: second :: rest =>
      if first.isDigit then
        if second.isDigit then some (10 * (first.toNat - 48) + (second.toNat - 48), rest)
        else some (first.toNat - 48, second :: rest)
      else none
  | [only] => if only.isDigit then some (only.toNat - 48, []) else none
  | [] => none

def numberBelow? (limit : Nat) (chars : List Char) : Option (List Char) :=
  match shortNumber? chars with
  | some (number, rest) => if number < limit then some rest else none
  | none => none

def after? (mark : Char) : List Char → Option (List Char)
  | char :: rest => if char = mark then some rest else none
  | [] => none

def isLeapYear (year : Nat) : Bool :=
  year % 4 == 0 && (year % 100 != 0 || year % 400 == 0)

def daysIn (year month : Nat) : Nat :=
  if month = 2 then if isLeapYear year then 29 else 28
  else if month = 4 ∨ month = 6 ∨ month = 9 ∨ month = 11 then 30
  else 31

/-- What follows a date that exists. The year has four digits. -/
def date? (chars : List Char) : Option (List Char) := do
  let digits := chars.takeWhile Char.isDigit
  if digits.length ≠ 4 then none
  let year := digits.foldl (fun total digit => 10 * total + (digit.toNat - 48)) 0
  let rest ← after? '-' (chars.drop 4)
  let (month, rest) ← shortNumber? rest
  let rest ← after? '-' rest
  let (day, rest) ← shortNumber? rest
  if 1 ≤ month ∧ month ≤ 12 ∧ 1 ≤ day ∧ day ≤ daysIn year month then some rest else none

def skipFraction : List Char → List Char
  | mark :: digit :: rest =>
      if (mark == '.' || mark == ',') && digit.isDigit then rest.dropWhile Char.isDigit
      else mark :: digit :: rest
  | rest => rest

def clock? (chars : List Char) : Option (List Char) := do
  let rest ← numberBelow? 24 chars
  let rest ← after? ':' rest
  let rest ← numberBelow? 60 rest
  let rest ← after? ':' rest
  let rest ← numberBelow? 60 rest
  some (skipFraction rest)

/-- A zone: the letter Z, or the hours and minutes by which it is off. -/
def isZone : List Char → Bool
  | ['Z'] => true
  | [sign, h, i, ':', m, n] =>
      (sign == '+' || sign == '-') && [h, i, m, n].all Char.isDigit
        && 10 * (h.toNat - 48) + (i.toNat - 48) ≤ 24 && 10 * (m.toNat - 48) + (n.toNat - 48) ≤ 60
  | _ => false

def isTimestamp (chars : List Char) : Bool :=
  match date? chars with
  | none => false
  | some [] => true
  | some (mark :: rest) =>
      if mark = 'T' ∨ mark = 't' then (clock? rest).any isZone
      else if mark = ' ' then (clock? (rest.dropWhile (· == ' '))).any (·.isEmpty)
      else false

end Yaml
end Rover
