import Rover.Yaml.Node
import Rover.Yaml.Problem
import Rover.Yaml.Scalar

/-!
Taking values out of a document. A mapping is read field by field; a mapping that is merged into it
adds the fields that it does not have. Problems are collected, but a document whose tags do not fit,
or whose merges make no sense, is malformed.
-/

namespace Rover
namespace Yaml

namespace Node

def tag : Node → Text
  | scalar value plain tag _ => Scalar.impliedTag value plain tag
  | sequence _ tag _ => tag.getD (text "!!seq")
  | mapping _ tag _ => tag.getD (text "!!map")
  | reference _ _ _ => []

def value : Node → Text
  | scalar value _ _ _ => value
  | reference name _ _ => name
  | sequence _ _ _ | mapping _ _ _ => []

def isMapping : Node → Bool
  | mapping _ _ _ => true
  | _ => false

/-- Which nodes count as the same key. -/
def sameKey : Node → Node → Bool
  | scalar first _ _ _, scalar second _ _ _ => first == second
  | reference first _ _, reference second _ _ => first == second
  | sequence _ _ _, sequence _ _ _ => true
  | mapping _ _ _, mapping _ _ _ => true
  | _, _ => false

def repeatedKeys : List Node → List Problem
  | [] => []
  | key :: rest =>
      (rest.filter (sameKey key)).map (fun other =>
        .repeatedKey other.value other.line key.line) ++ repeatedKeys rest

def mismatch (target : Text) (node : Node) : List Problem :=
  let plainly := [Problem.mismatch node.tag node.value target node.line]
  match node with
  | mapping entries _ _ =>
      match repeatedKeys (entries.map (·.1)) with
      | [] => plainly
      | problems => problems
  | _ => plainly

end Node

inductive Refusal where
  | malformed
  | problems (found : List Problem)
  deriving DecidableEq, Repr

/-- What is taken from a node: nothing from a null, else a value. -/
abbrev Taken (α : Type) := Except Refusal (Option α)

/-- What a place wants. A place that is `optional` can be left empty, and shows it when a collection
is tagged as null. -/
structure Place where
  target : Text
  optional : Bool

def Place.shown (place : Place) (node : Node) : Text :=
  if place.optional && node.tag == text "!!null" then text "*" ++ place.target else place.target

def take {α : Type} (document : Document) (place : Place) (use : Scalar → Text → Option α)
    (node : Node) : Taken α :=
  let node := document.resolve node
  let refused : Taken α := .error (.problems (node.mismatch (place.shown node)))
  match node with
  | .scalar value plain tag _ =>
      match Scalar.meaning? value plain tag with
      | none => .error .malformed
      | some .null => .ok none
      | some scalar =>
          match use scalar value with
          | some taken => .ok (some taken)
          | none => refused
  | _ => refused

def switchWord? (word : Text) : Option Bool :=
  if ["y", "Y", "yes", "Yes", "YES", "on", "On", "ON"].map text |>.contains word then some true
  else if ["n", "N", "no", "No", "NO", "off", "Off", "OFF"].map text |>.contains word then
    some false
  else none

def takeBool (document : Document) (node : Node) : Taken Bool :=
  take document ⟨text "bool", true⟩
    (fun scalar _ =>
      match scalar with
      | .bool truth => some truth
      | .string content => switchWord? content
      | _ => none)
    node

def takeFloat (document : Document) (node : Node) : Taken Float :=
  take document ⟨text "float64", true⟩
    (fun scalar _ =>
      match scalar with
      | .int number => some (Scalar.floatOfInt number)
      | .float number => some number
      | _ => none)
    node

def takeText (document : Document) (optional : Bool) (node : Node) : Taken Text :=
  take document ⟨text "string", optional⟩
    (fun scalar value =>
      match scalar with
      | .string content => some content
      | _ => some value)
    node

/-- What reading a mapping meets, in order. -/
inductive Finding where
  | field (name : Text) (value : Node)
  | problems (found : List Problem)

structure Record where
  name : Text
  fields : List Text

def isMergeKey : Node → Bool
  | .scalar value plain tag _ =>
      value == Scalar.mergeSign && Scalar.impliedTag value plain tag == Scalar.mergeTag
  | _ => false

/-- The findings so far, the names met so far in this mapping, and those that count no more because
a mapping that comes before has them; nothing is passed over outside merges. -/
structure Gathering where
  findings : List Finding
  met : List Text
  passed : Option (List Text)

def Gathering.found (gathering : Gathering) (finding : Finding) : Gathering :=
  { gathering with findings := gathering.findings ++ [finding] }

def Gathering.entry (document : Document) (record : Record) (gathering : Gathering)
    (entry : Node × Node) : Option Gathering :=
  match takeText document false entry.1 with
  | .error .malformed => none
  | .error (.problems found) => some (gathering.found (.problems found))
  | .ok none => some gathering
  | .ok (some name) =>
      if gathering.passed.any (·.contains name) then some gathering
      else
        let gathering := { gathering with passed := gathering.passed.map (name :: ·) }
        if !record.fields.contains name then
          some (gathering.found (.problems [.unknownField name record.name entry.1.line]))
        else if gathering.met.contains name then
          some (gathering.found (.problems [.fieldAgain name record.name entry.1.line]))
        else
          some ({ gathering with met := name :: gathering.met }.found (.field name entry.2))

/-- The names that keys spell out, whatever else they mean; a collection has none. -/
def spelled? (document : Document) (keys : List Node) : Option (List Text) :=
  keys.foldlM
    (fun names key =>
      match document.resolve key with
      | .scalar value plain tag _ =>
          match Scalar.meaning? value plain tag with
          | some (.string content) => some (content :: names)
          | some _ => some names
          | none => none
      | _ => none)
    []

def merged? (document : Document) (node : Node) : Option (List Node) :=
  let mappings? (nodes : List Node) : Option (List Node) :=
    let found := nodes.map document.resolve
    if found.all Node.isMapping then some found else none
  match node with
  | .sequence items _ _ => mappings? items
  | other => mappings? [other]

/-- Reads a mapping with those merged into it. The fuel bounds how deep merges are nested; one that
goes deeper contains itself. -/
def gather (document : Document) (record : Record) :
    (fuel : Nat) → (passed : Option (List Text)) → Node → Option (List Finding × Option (List Text))
  | 0, _, _ => none
  | fuel + 1, passed, .mapping entries _ _ =>
      match Node.repeatedKeys (entries.map (·.1)) with
      | [] =>
          match (entries.filter fun entry => !isMergeKey entry.1).foldlM
              (Gathering.entry document record) ⟨[], [], passed⟩ with
          | none => none
          | some own =>
              match entries.find? fun entry => isMergeKey entry.1 with
              | none => some (own.findings, own.passed)
              | some (_, source) =>
                  match merged? document source, own.passed <|> spelled? document
                      (entries.map (·.1)) with
                  | some mappings, some names =>
                      let result := mappings.foldlM
                        (fun (found : List Finding × Option (List Text)) mapping =>
                          (gather document record fuel found.2 mapping).map fun more =>
                            (found.1 ++ more.1, more.2))
                        (own.findings, some names)
                      result.map fun found => (found.1, own.passed.bind fun _ => found.2)
                  | _, _ => none
      | problems => some ([.problems problems], passed)
  | _ + 1, _, _ => none

end Yaml
end Rover
