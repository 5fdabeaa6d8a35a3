/-!
Text is a sequence of bytes. Names, string values, messages, paths and file contents are all
kept as bytes, since none of them has to be well-formed UTF-8; where characters matter, the bytes
are decoded, and each byte that belongs to no character stands alone.
-/

namespace Rover

abbrev Text := List UInt8

def text (literal : String) : Text :=
  literal.toList.flatMap String.utf8EncodeChar

namespace Text

def ofChars (chars : List Char) : Text :=
  chars.flatMap String.utf8EncodeChar

@[simp] theorem ofChars_nil : ofChars [] = [] := rfl

@[simp] theorem ofChars_cons (char : Char) (chars : List Char) :
    ofChars (char :: chars) = String.utf8EncodeChar char ++ ofChars chars := rfl

@[simp] theorem ofChars_append (first second : List Char) :
    ofChars (first ++ second) = ofChars first ++ ofChars second := by
  simp [ofChars]

/-- A piece of text is a character, or a byte that is part of none. -/
inductive Piece where
  | char (char : Char)
  | stray (byte : UInt8)
  deriving DecidableEq, Repr

def isContinuation (byte : UInt8) : Bool :=
  0x80 ≤ byte && byte < 0xC0

/-- The character with the given code, provided that the code is not below `least` (a shorter
form exists) and is a character at all. -/
def charOfCode? (least code : Nat) : Option Char :=
  if least ≤ code ∧ code.isValidChar then some (Char.ofNat code) else none

def tailBits (byte : UInt8) : Nat :=
  byte.toNat % 64

def twoBytes? (first second : UInt8) : Option Char :=
  if 0xC0 ≤ first && first < 0xE0 && isContinuation second then
    charOfCode? 0x80 (first.toNat % 32 * 64 + tailBits second)
  else none

def threeBytes? (first second third : UInt8) : Option Char :=
  if 0xE0 ≤ first && first < 0xF0 && isContinuation second && isContinuation third then
    charOfCode? 0x800 (first.toNat % 16 * 4096 + tailBits second * 64 + tailBits third)
  else none

def fourBytes? (first second third fourth : UInt8) : Option Char :=
  if 0xF0 ≤ first && first < 0xF8 && isContinuation second && isContinuation third
      && isContinuation fourth then
    charOfCode? 0x10000 (first.toNat % 8 * 262144 + tailBits second * 4096
      + tailBits third * 64 + tailBits fourth)
  else none

/-- The first piece of a non-empty text, and how many bytes after the first belong to it. -/
def firstPiece (first : UInt8) (rest : Text) : Piece × Nat :=
  if first < 0x80 then (.char (Char.ofNat first.toNat), 0)
  else
    match rest with
    | second :: third :: fourth :: _ =>
        match twoBytes? first second, threeBytes? first second third,
            fourBytes? first second third fourth with
        | some char, _, _ => (.char char, 1)
        | none, some char, _ => (.char char, 2)
        | none, none, some char => (.char char, 3)
        | none, none, none => (.stray first, 0)
    | [second, third] =>
        match twoBytes? first second, threeBytes? first second third with
        | some char, _ => (.char char, 1)
        | none, some char => (.char char, 2)
        | none, none => (.stray first, 0)
    | [second] =>
        match twoBytes? first second with
        | some char => (.char char, 1)
        | none => (.stray first, 0)
    | [] => (.stray first, 0)

def pieces : Text → List Piece
  | [] => []
  | first :: rest =>
      (firstPiece first rest).1 :: pieces (rest.drop (firstPiece first rest).2)
termination_by bytes => bytes.length
decreasing_by simp only [List.length_drop, List.length_cons]; omega

/-- What stands for a piece where only characters can stand. -/
def Piece.shown : Piece → Char
  | .char letter => letter
  | .stray _ => '\uFFFD'

def Piece.bytes : Piece → Text
  | .char letter => String.utf8EncodeChar letter
  | .stray byte => [byte]

/-- The characters of a text, each stray byte replaced by U+FFFD. -/
def chars (bytes : Text) : List Char :=
  bytes.pieces.map Piece.shown

def isValid (bytes : Text) : Bool :=
  bytes.pieces.all fun
    | .char _ => true
    | .stray _ => false

def le : Text → Text → Bool
  | [], _ => true
  | _ :: _, [] => false
  | first :: rest, other :: others =>
      first < other || (first == other && le rest others)

def sorted (texts : List Text) : List Text :=
  texts.mergeSort le

def ofNat (number : Nat) : Text :=
  ofChars (Nat.toDigits 10 number)

def ofInt : Int → Text
  | .ofNat number => ofNat number
  | .negSucc number => text "-" ++ ofNat (number + 1)

def hexDigit (digit : Nat) : Char :=
  if digit < 10 then Char.ofNat (48 + digit) else Char.ofNat (87 + digit)

def hex : Nat → Nat → List Char
  | 0, _ => []
  | width + 1, number => hex width (number / 16) ++ [hexDigit (number % 16)]

def join (separator : Text) : List Text → Text
  | [] => []
  | [last] => last
  | first :: second :: rest => first ++ separator ++ join separator (second :: rest)

/-- The parts between the occurrences of a byte; there is always one more part than occurrences. -/
def splitOn (separator : UInt8) : Text → List Text
  | [] => [[]]
  | byte :: rest =>
      if byte = separator then [] :: splitOn separator rest
      else
        match splitOn separator rest with
        | [] => [[byte]]
        | part :: parts => (byte :: part) :: parts

def startsWith (bytes start : Text) : Bool :=
  start.isPrefixOf bytes

def replace (old new : UInt8) (bytes : Text) : Text :=
  bytes.map fun byte => if byte = old then new else byte

end Text
end Rover
