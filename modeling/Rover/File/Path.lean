import Rover.Text

/-!
Paths are texts whose parts are separated by slashes. Cleaning a path removes empty parts, dots, and
each double dot together with the part before it.
-/

namespace Rover
namespace Path

def slash : UInt8 := 47

def dot : Text := text "."

def dots : Text := text ".."

def isAbsolute (path : Text) : Bool :=
  path.head? == some slash

/-- Adds a part to the parts before it, which are listed from the last to the first. -/
def step (absolute : Bool) (before : List Text) (part : Text) : List Text :=
  if part.isEmpty || part == dot then before
  else if part == dots then
    match before with
    | last :: rest => if last == dots then part :: before else rest
    | [] => if absolute then [] else [part]
  else part :: before

def parts (path : Text) : List Text :=
  ((path.splitOn slash).foldl (step (isAbsolute path)) []).reverse

def ofParts (absolute : Bool) (parts : List Text) : Text :=
  let joined := Text.join (text "/") parts
  if absolute then slash :: joined else if joined.isEmpty then dot else joined

def clean (path : Text) : Text :=
  ofParts (isAbsolute path) (parts path)

/-- The path of the directory that the last part of a path is in. -/
def parent (path : Text) : Text :=
  clean (path.reverse.dropWhile (· != slash)).reverse

def join (first second : Text) : Text :=
  if first.isEmpty then if second.isEmpty then [] else clean second
  else if second.isEmpty then clean first
  else clean (first ++ text "/" ++ second)

def absolute (directory path : Text) : Text :=
  if isAbsolute path then clean path else join directory path

end Path
end Rover
