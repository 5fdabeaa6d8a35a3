/-!
Floating-point numbers are IEEE 754 binary64. Here a number is taken apart into an exact ratio, and
a ratio is rounded to the nearest number; a tie goes to the even neighbour.
-/

namespace Rover

/-- The integer nearest to a ratio; a tie goes to the even one. -/
def nearestEven (num den : Nat) : Nat :=
  let quotient := num / den
  let twice := 2 * (num % den)
  if twice < den ∨ (twice = den ∧ quotient % 2 = 0) then quotient else quotient + 1

namespace Binary64

inductive Class where
  | nan
  | infinite (negative : Bool)
  /-- The magnitude is `num / den`. -/
  | finite (negative : Bool) (num den : Nat)

/-- The worth of the leading bit of a normal number, which is not stored, in units of its last
place. -/
def hiddenBit : Nat := 1 <<< 52

/-- The exact value of a number. -/
def classify (number : Float) : Class :=
  let bits := number.toBits.toNat
  let negative := bits >>> 63 == 1
  let exponent := (bits >>> 52) % 2048
  let fraction := bits % hiddenBit
  if exponent = 2047 then
    if fraction = 0 then .infinite negative else .nan
  else
    let mantissa := if exponent = 0 then fraction else hiddenBit + fraction
    let scale := max exponent 1
    if 1075 ≤ scale then .finite negative (mantissa <<< (scale - 1075)) 1
    else .finite negative mantissa (1 <<< (1075 - scale))

/-- The number nearest to a positive ratio; none if it is too large for a finite number. The unit
in the last place is `2 ^ (ulp - 1074)`. -/
def ofRatio? (negative : Bool) (num den : Nat) : Option Float :=
  let sign := if negative then 1 <<< 63 else 0
  if num = 0 then some (Float.ofBits (UInt64.ofNat sign))
  else
    let scaled := num <<< 1074
    let whole := scaled / den
    let ulp := whole.log2 - 52
    let mantissa := nearestEven scaled (den <<< ulp)
    let magnitude := ulp * hiddenBit + mantissa
    if magnitude < 2047 * hiddenBit then some (Float.ofBits (UInt64.ofNat (sign + magnitude)))
    else none

def infinity (negative : Bool) : Float :=
  Float.ofBits (if negative then 0xFFF0000000000000 else 0x7FF0000000000000)

def nan : Float :=
  Float.ofBits 0x7FF8000000000001

end Binary64
end Rover
