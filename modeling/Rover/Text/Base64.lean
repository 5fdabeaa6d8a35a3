import Rover.Text

/-!
Base 64: four signs of six bits stand for three bytes, and the last four are filled up with equals
signs. Line breaks between the signs do not count.
-/

namespace Rover
namespace Base64

def bits? (sign : UInt8) : Option Nat :=
  let code := sign.toNat
  if 65 ≤ code ∧ code ≤ 90 then some (code - 65)
  else if 97 ≤ code ∧ code ≤ 122 then some (code - 71)
  else if 48 ≤ code ∧ code ≤ 57 then some (code + 4)
  else if code = 43 then some 62
  else if code = 47 then some 63
  else none

def padding : UInt8 := 61

def isLineBreak (byte : UInt8) : Bool :=
  byte == 10 || byte == 13

def bytes (count first second third fourth : Nat) : Text :=
  let whole := ((first * 64 + second) * 64 + third) * 64 + fourth
  [UInt8.ofNat (whole / 65536), UInt8.ofNat (whole / 256), UInt8.ofNat whole].take count

def groups? : Text → Option Text
  | [] => some []
  | first :: second :: third :: fourth :: rest =>
      match bits? first, bits? second, bits? third, bits? fourth with
      | some a, some b, some c, some d => (groups? rest).map (bytes 3 a b c d ++ ·)
      | some a, some b, some c, none =>
          if fourth = padding ∧ rest = [] then some (bytes 2 a b c 0) else none
      | some a, some b, none, none =>
          if third = padding ∧ fourth = padding ∧ rest = [] then some (bytes 1 a b 0 0) else none
      | _, _, _, _ => none
  | _ => none

def decode? (source : Text) : Option Text :=
  groups? (source.filter (!isLineBreak ·))

end Base64
end Rover
