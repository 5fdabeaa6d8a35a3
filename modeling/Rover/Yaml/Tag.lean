import Rover.Yaml.Character

/-!
Tags say what a node is. A tag is written in full between angle brackets, or as a handle that stands
for the start of the tag, followed by the rest. Tags of the standard types have a short form.
-/

namespace Rover
namespace Yaml

def isTagChar (char : Char) : Bool :=
  isNameChar char
    || [';', '/', '?', ':', '@', '&', '=', '+', '$', ',', '.', '!', '~', '*', '\x27', '(', ')', '[',
      ']'].contains char

/-- How many escaped bytes are still due after a byte when `due` were due before it: the first byte
of a character tells, and those after it continue it. -/
def bytesDue? (due : Nat) (byte : UInt8) : Option Nat :=
  let code := byte.toNat
  match due with
  | 0 =>
      if code < 0x80 then some 0
      else if 0xC0 ≤ code ∧ code < 0xE0 then some 1
      else if 0xE0 ≤ code ∧ code < 0xF0 then some 2
      else if 0xF0 ≤ code ∧ code < 0xF8 then some 3
      else none
  | rest + 1 => if 0x80 ≤ code ∧ code < 0xC0 then some rest else none

/-- The part of a tag at the start of a text, and what follows it. A percent sign and two digits
stand for a byte. -/
def tagPart? : (due : Nat) → List Char → Option (Text × List Char)
  | due, '%' :: high :: low :: rest =>
      match hexDigit? high, hexDigit? low with
      | some first, some second =>
          let byte := UInt8.ofNat (16 * first + second)
          match bytesDue? due byte with
          | some due => (tagPart? due rest).map fun (part, after) => (byte :: part, after)
          | none => none
      | _, _ => none
  | 0, char :: rest =>
      if char = '%' then none
      else if isTagChar char then
        (tagPart? 0 rest).map fun (part, after) => (String.utf8EncodeChar char ++ part, after)
      else some ([], char :: rest)
  | 0, [] => some ([], [])
  | _ + 1, _ => none

def filledPart? (rest : List Char) : Option (Text × List Char) :=
  match tagPart? 0 rest with
  | some ([], _) => none
  | found => found

/-- A tag as it is written. The handle is empty if the tag is written in full. -/
structure TagName where
  handle : Text
  suffix : Text
  deriving DecidableEq, Repr

def tagName? (rest : List Char) : Option (TagName × List Char) :=
  match rest with
  | '<' :: body =>
      match filledPart? body with
      | some (suffix, '>' :: after) => some (⟨[], suffix⟩, after)
      | _ => none
  | _ =>
      let word := Text.ofChars (rest.takeWhile isNameChar)
      match rest.dropWhile isNameChar with
      | '!' :: more =>
          (filledPart? more).map fun (suffix, after) =>
            (⟨text "!" ++ word ++ text "!", suffix⟩, after)
      | more =>
          (tagPart? 0 more).map fun (part, after) =>
            (if word.isEmpty && part.isEmpty then ⟨[], text "!"⟩
              else ⟨text "!", word ++ part⟩, after)

/-- The handle at the start of a text: one or two exclamation marks, or a word between two. -/
def handle? : List Char → Option (Text × List Char)
  | '!' :: rest =>
      let word := Text.ofChars (rest.takeWhile isNameChar)
      match rest.dropWhile isNameChar with
      | '!' :: after => some (text "!" ++ word ++ text "!", after)
      | after => if word.isEmpty then some (text "!", after) else none
  | _ => none

/-- What a handle stands for. -/
structure TagHandle where
  handle : Text
  start : Text
  deriving DecidableEq, Repr

def standardStart : Text := text "tag:yaml.org,2002:"

def standardHandles : List TagHandle :=
  [⟨text "!", text "!"⟩, ⟨text "!!", standardStart⟩]

def shortTag (tag : Text) : Text :=
  if tag.startsWith standardStart then text "!!" ++ tag.drop standardStart.length else tag

def TagName.resolve? (handles : List TagHandle) (name : TagName) : Option Text :=
  if name.handle.isEmpty then some name.suffix
  else (handles.find? (·.handle == name.handle)).map (·.start ++ name.suffix)

/-- The tag of a node; a lone exclamation mark is as good as none. -/
def givenTag (tag : Text) : Option Text :=
  if tag = text "!" then none else some (shortTag tag)

end Yaml
end Rover
