import Rover.Text
import Rover.Text.Printable

namespace Rover
namespace Text

/-- The letter after the backslash for the seven control characters that have one. -/
def controlLetter? (char : Char) : Option Char :=
  match char.toNat with
  | 0x07 => some 'a'
  | 0x08 => some 'b'
  | 0x0C => some 'f'
  | 0x0A => some 'n'
  | 0x0D => some 'r'
  | 0x09 => some 't'
  | 0x0B => some 'v'
  | _ => none

def escapeChar (mark char : Char) : List Char :=
  if char = mark ∨ char = '\\' then ['\\', char]
  else if isPrintable char then [char]
  else
    match controlLetter? char with
    | some letter => ['\\', letter]
    | none =>
        let code := char.toNat
        if code < 0x20 || code == 0x7F then '\\' :: 'x' :: hex 2 code
        else if code < 0x10000 then '\\' :: 'u' :: hex 4 code
        else '\\' :: 'U' :: hex 8 code

def Piece.escape (mark : Char) : Piece → List Char
  | .char letter => escapeChar mark letter
  | .stray byte => '\\' :: 'x' :: hex 2 byte.toNat

def quoted (bytes : Text) : Text :=
  ofChars ('"' :: bytes.pieces.flatMap (Piece.escape '"') ++ ['"'])

def quotedChar (char : Char) : Text :=
  ofChars ('\x27' :: escapeChar '\x27' char ++ ['\x27'])

end Text
end Rover
