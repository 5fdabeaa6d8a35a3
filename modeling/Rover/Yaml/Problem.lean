import Rover.Text.Quoted

namespace Rover
namespace Yaml

inductive Problem where
  /-- A node cannot become what its place wants. -/
  | mismatch (tag value target : Text) (line : Nat)
  | unknownField (name target : Text) (line : Nat)
  /-- Two keys that are written differently have the same meaning. -/
  | fieldAgain (name target : Text) (line : Nat)
  | repeatedKey (key : Text) (line first : Nat)
  deriving DecidableEq, Repr

namespace Problem

/-- A value as messages show it: a long one is cut short. -/
def excerpt (value : Text) : Text :=
  text " \x60" ++ (if 10 < value.length then value.take 7 ++ text "..." else value) ++ text "\x60"

/-- What follows the tag of a mismatch. What is tagged as a collection is not quoted. -/
def shown (tag value : Text) : Text :=
  if tag = text "!!seq" ∨ tag = text "!!map" then value else excerpt value

def message : Problem → Text
  | mismatch tag value target line =>
      text "line " ++ Text.ofNat line ++ text ": cannot unmarshal " ++ tag ++ shown tag value
        ++ text " into " ++ target
  | unknownField name target line =>
      text "line " ++ Text.ofNat line ++ text ": field " ++ name ++ text " not found in type "
        ++ target
  | fieldAgain name target line =>
      text "line " ++ Text.ofNat line ++ text ": field " ++ name ++ text " already set in type "
        ++ target
  | repeatedKey key line first =>
      text "line " ++ Text.ofNat line ++ text ": mapping key " ++ key.quoted
        ++ text " already defined at line " ++ Text.ofNat first

end Problem
end Yaml
end Rover
