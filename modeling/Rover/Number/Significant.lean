import Rover.Number.Binary64
import Rover.Text

/-!
Floats are written with six significant digits, rounded from the exact value with ties to even.
Trailing zeros are dropped. Values from `1e-4` up to but not including `1e6` are written
positionally, all others with an exponent of at least two digits.
-/

namespace Rover
namespace Significant

def precision : Nat := 6

def digitCount (number : Nat) : Nat :=
  (Nat.toDigits 10 number).length

/-- The exponent `e` with `10 ^ e ≤ num / den < 10 ^ (e + 1)`. -/
def magnitude (num den : Nat) : Int :=
  if den ≤ num then (digitCount (num / den) : Int) - 1
  else -(digitCount ((den + num - 1) / num - 1) : Int)

/-- The digits of a positive ratio and the exponent of the first one. -/
def digits (num den : Nat) : List Char × Int :=
  let exponent := magnitude num den
  let shift := exponent - (precision - 1)
  let rounded := match shift with
    | .ofNat places => nearestEven num (den * Nat.pow 10 places)
    | .negSucc places => nearestEven (num * Nat.pow 10 (places + 1)) den
  if rounded = Nat.pow 10 precision then (['1'], exponent + 1)
  else
    let shown := Nat.toDigits 10 rounded
    ((shown.reverse.dropWhile (· == '0')).reverse, exponent)

def zeros (count : Nat) : List Char :=
  List.replicate count '0'

/-- The digits around a point whose place the exponent gives. -/
def positional (shown : List Char) : Int → List Char
  | .ofNat exponent =>
      let whole := exponent + 1
      if shown.length ≤ whole then shown ++ zeros (whole - shown.length)
      else shown.take whole ++ '.' :: shown.drop whole
  | .negSucc below => '0' :: '.' :: zeros below ++ shown

def withExponent (shown : List Char) (exponent : Int) : List Char :=
  let fraction := match shown.drop 1 with
    | [] => []
    | rest => '.' :: rest
  let size := Nat.toDigits 10 exponent.natAbs
  let padded := if size.length < 2 then '0' :: size else size
  shown.take 1 ++ fraction ++ 'e' :: (if exponent < 0 then '-' else '+') :: padded

def ratio (num den : Nat) : List Char :=
  if num = 0 then ['0']
  else
    let (shown, exponent) := digits num den
    if exponent < -4 ∨ (precision : Int) ≤ exponent then withExponent shown exponent
    else positional shown exponent

def render (number : Float) : Text :=
  match Binary64.classify number with
  | .nan => text "NaN"
  | .infinite negative => text (if negative then "-Inf" else "+Inf")
  | .finite negative num den =>
      (if negative then text "-" else []) ++ Text.ofChars (ratio num den)

end Significant
end Rover
