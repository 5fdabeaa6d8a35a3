import Rover.Number.Binary64
import Rover.Text

/-!
Numbers are read from their text. Integers are decimal with an optional sign and have to fit 64
bits. Floats are decimal or hexadecimal, with exponents, infinities and not-a-number; a float that
is too large is refused, one that is too small becomes zero.
-/

namespace Rover
namespace Reading

def digitValue (char : Char) : Nat :=
  char.toNat - 48

def decimal (digits : List Char) : Nat :=
  digits.foldl (fun total digit => 10 * total + digitValue digit) 0

def sign : List Char → Bool × List Char
  | '-' :: rest => (true, rest)
  | '+' :: rest => (false, rest)
  | rest => (false, rest)

def integer? (chars : List Char) : Option Int :=
  let (negative, digits) := sign chars
  if digits ≠ [] ∧ digits.all Char.isDigit then
    some (if negative then -(decimal digits : Int) else decimal digits)
  else none

def int64? (source : Text) : Option Int64 :=
  match integer? source.chars with
  | some value =>
      if Int64.minValue.toInt ≤ value ∧ value ≤ Int64.maxValue.toInt then some (Int64.ofInt value)
      else none
  | none => none

/-- What the character before was, as far as underscores care. -/
inductive Before where
  | digit
  | underscore
  | other
  deriving DecidableEq

def underscoresFrom (isDigit : Char → Bool) : Before → List Char → Bool
  | before, [] => before != .underscore
  | before, char :: rest =>
      if isDigit char then underscoresFrom isDigit .digit rest
      else if char = '_' then before == .digit && underscoresFrom isDigit .underscore rest
      else before != .underscore && underscoresFrom isDigit .other rest

def isHexDigit (char : Char) : Bool :=
  char.isDigit || ('a' ≤ char.toLower && char.toLower ≤ 'f')

/-- Every underscore stands after a digit, or after the mark of the base, and before a digit. -/
def underscoresFit (chars : List Char) : Bool :=
  match (sign chars).2 with
  | '0' :: mark :: rest =>
      match mark.toLower with
      | 'x' => underscoresFrom isHexDigit .digit rest
      | 'b' | 'o' => underscoresFrom Char.isDigit .digit rest
      | _ => underscoresFrom Char.isDigit .other ('0' :: mark :: rest)
  | rest => underscoresFrom Char.isDigit .other rest

def hexValue (char : Char) : Nat :=
  if char.isDigit then digitValue char else char.toLower.toNat - 87

/-- Digits read so far: their value, how many stand after the point, and whether there was a point
and any digit. -/
structure Digits where
  value : Nat
  places : Nat
  point : Bool
  any : Bool

def digits (base : Nat) (isDigit : Char → Bool) : Digits → List Char → Digits × List Char
  | found, [] => (found, [])
  | found, char :: rest =>
      if char = '_' then digits base isDigit found rest
      else if char = '.' then
        if found.point then (found, char :: rest)
        else digits base isDigit { found with point := true } rest
      else if isDigit char then
        digits base isDigit
          { found with
            value := base * found.value + hexValue char
            places := if found.point then found.places + 1 else found.places
            any := true }
          rest
      else (found, char :: rest)

/-- The magnitude of an exponent; digits past the fifth do not count. -/
def exponentValue (digits : List Char) : Nat :=
  digits.foldl
    (fun total digit => if total < 10000 then 10 * total + digitValue digit else total) 0

/-- The exponent after its letter: a sign and digits to the end of the text. -/
def exponent? (chars : List Char) : Option Int :=
  let (negative, rest) := sign chars
  match rest with
  | first :: _ =>
      if first.isDigit ∧ rest.all (fun char => char.isDigit || char == '_') then
        let size := exponentValue (rest.filter Char.isDigit)
        some (if negative then -(size : Int) else size)
      else none
  | [] => none

inductive Unreadable where
  | malformed
  | outOfRange
  deriving DecidableEq, Repr

def scaled (negative : Bool) (base value : Nat) (exponent : Int) : Except Unreadable Float :=
  let nearest :=
    match exponent with
    | .ofNat size => Binary64.ofRatio? negative (value * Nat.pow base size) 1
    | .negSucc size => Binary64.ofRatio? negative value (Nat.pow base (size + 1))
  match nearest with
  | some number => .ok number
  | none => .error .outOfRange

def decimalFloat (negative : Bool) (chars : List Char) : Except Unreadable Float :=
  let (found, rest) := digits 10 Char.isDigit ⟨0, 0, false, false⟩ chars
  if found.any then
    match rest with
    | [] => scaled negative 10 found.value (-(found.places : Int))
    | letter :: after =>
        match exponent? after with
        | some exponent =>
            if letter.toLower = 'e' then scaled negative 10 found.value (exponent - found.places)
            else .error .malformed
        | none => .error .malformed
  else .error .malformed

/-- A hexadecimal float always has an exponent, which is one of two. -/
def hexFloat (negative : Bool) (chars : List Char) : Except Unreadable Float :=
  let (found, rest) := digits 16 isHexDigit ⟨0, 0, false, false⟩ chars
  if found.any then
    match rest with
    | [] => .error .malformed
    | letter :: after =>
        match exponent? after with
        | some exponent =>
            if letter.toLower = 'p' then
              scaled negative 2 found.value (exponent - 4 * found.places)
            else .error .malformed
        | none => .error .malformed
  else .error .malformed

def word (chars : List Char) : String :=
  String.ofList (chars.map Char.toLower)

def special? (chars : List Char) : Option Float :=
  let (negative, rest) := sign chars
  if word rest = "inf" ∨ word rest = "infinity" then some (Binary64.infinity negative)
  else if word chars = "nan" then some Binary64.nan
  else none

def float (source : Text) : Except Unreadable Float :=
  let chars := source.chars
  match special? chars with
  | some number => .ok number
  | none =>
      if chars.contains '_' && !underscoresFit chars then .error .malformed
      else
        let (negative, rest) := sign chars
        match rest with
        | '0' :: mark :: more :: others =>
            if mark.toLower = 'x' then hexFloat negative (more :: others)
            else decimalFloat negative rest
        | rest => decimalFloat negative rest

def float? (source : Text) : Option Float :=
  (float source).toOption

end Reading
end Rover
