import Rover.Text

namespace Rover

/-- Whether a character has the Unicode property White_Space. -/
def isSpace (char : Char) : Bool :=
  let code := char.toNat
  (0x09 ≤ code && code ≤ 0x0D) || code == 0x20 || code == 0x85 || code == 0xA0 || code == 0x1680
    || (0x2000 ≤ code && code ≤ 0x200A) || code == 0x2028 || code == 0x2029 || code == 0x202F
    || code == 0x205F || code == 0x3000

namespace Text

def Piece.isSpace : Piece → Bool
  | .char letter => Rover.isSpace letter
  | .stray _ => false

def trim (bytes : Text) : Text :=
  let started := bytes.pieces.dropWhile Piece.isSpace
  let ended := (started.reverse.dropWhile Piece.isSpace).reverse
  ended.flatMap Piece.bytes

end Text
end Rover
