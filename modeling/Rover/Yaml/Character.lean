import Rover.Text

namespace Rover
namespace Yaml

/-- The units of two bytes, the lower byte first or second. -/
def units? (lowFirst : Bool) : Text → Option (List Nat)
  | [] => some []
  | first :: second :: rest =>
      let unit := if lowFirst then second.toNat * 256 + first.toNat
        else first.toNat * 256 + second.toNat
      (units? lowFirst rest).map (unit :: ·)
  | [_] => none

/-- The characters of UTF-16 units; two surrogates make one character. -/
def ofUnits? : List Nat → Option (List Char)
  | [] => some []
  | unit :: rest =>
      if unit / 1024 = 54 then
        match rest with
        | second :: others =>
            if second / 1024 = 55 then
              (ofUnits? others).map
                (Char.ofNat (65536 + unit % 1024 * 1024 + second % 1024) :: ·)
            else none
        | [] => none
      else if unit / 1024 = 55 then none
      else (ofUnits? rest).map (Char.ofNat unit :: ·)

def decoded? : Text → Option (List Char)
  | 0xFF :: 0xFE :: rest => (units? true rest).bind ofUnits?
  | 0xFE :: 0xFF :: rest => (units? false rest).bind ofUnits?
  | 0xEF :: 0xBB :: 0xBF :: rest => if Text.isValid rest then some (Text.chars rest) else none
  | source => if source.isValid then some source.chars else none

def isAllowed (char : Char) : Bool :=
  let code := char.toNat
  code == 0x09 || code == 0x0A || code == 0x0D || (0x20 ≤ code && code ≤ 0x7E) || code == 0x85
    || (0xA0 ≤ code && code ≤ 0xFFFD) || 0x10000 ≤ code

def isBreak (char : Char) : Bool :=
  char == '\n' || char == '\r' || char == '\x85' || char == '\u2028' || char == '\u2029'

def isBlank (char : Char) : Bool :=
  char == ' ' || char == '\t'

/-- Whether a token is complete before what comes next: a blank, a line break or the end. -/
def ends : List Char → Bool
  | [] => true
  | char :: _ => isBlank char || isBreak char

def normalBreak (char : Char) : Char :=
  if char == '\u2028' || char == '\u2029' then char else '\n'

def joinBreaks : List Char → List Char
  | '\r' :: '\n' :: rest => '\n' :: joinBreaks rest
  | char :: rest => char :: joinBreaks rest
  | [] => []

def isNameChar (char : Char) : Bool :=
  char.isAlphanum || char == '_' || char == '-'

def hexDigit? (char : Char) : Option Nat :=
  if char.isDigit then some (char.toNat - 48)
  else if 'a' ≤ char ∧ char ≤ 'f' then some (char.toNat - 87)
  else if 'A' ≤ char ∧ char ≤ 'F' then some (char.toNat - 55)
  else none

end Yaml
end Rover
