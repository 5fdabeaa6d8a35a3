import Rover.Yaml.Token

/-!
YAML nodes, and how the first document of a source is read from its tokens. Nothing after the first
document matters.
-/

namespace Rover
namespace Yaml

/-- Lines count from 1. A node is tagged if a tag other than a lone exclamation mark was given. A
reference stands for the node with the given number among those that have names. -/
inductive Node where
  | scalar (value : Text) (plain : Bool) (tag : Option Text) (line : Nat)
  | sequence (items : List Node) (tag : Option Text) (line : Nat)
  | mapping (entries : List (Node × Node)) (tag : Option Text) (line : Nat)
  | reference (name : Text) (number : Nat) (line : Nat)
  deriving Inhabited

namespace Node

def line : Node → Nat
  | scalar _ _ _ line | sequence _ _ line | mapping _ _ line | reference _ _ line => line

def empty (line : Nat) : Node := scalar [] true none line

end Node

/-- A document, with the nodes that have names by their numbers. The size bounds the number of its
nodes. -/
structure Document where
  root : Node
  numbered : List (Nat × Node)
  size : Nat

/-- The node that is meant: a reference never names another. -/
def Document.resolve (document : Document) : Node → Node
  | .reference name number line =>
      (document.numbered.lookup number).getD (.reference name number line)
  | node => node

/-- The reader works on the tokens that are left. It knows what handles stand for, which names were
given, and the nodes that got them. A name counts from the start of its node on. -/
structure Reader where
  tokens : List Token
  handles : List TagHandle
  names : List (Text × Nat)
  numbered : List (Nat × Node)

abbrev Read (α : Type) := StateT Reader Option α

namespace Read

def peek : Read (Option Token) :=
  return (← get).tokens.head?

def sign : Read (Option Sign) :=
  return (← peek).map (·.sign)

def line : Read Nat :=
  return ((← peek).map (·.line + 1)).getD 1

def skip : Read Unit :=
  modify fun reader => { reader with tokens := reader.tokens.tail }

def takeIf (wanted : Sign) : Read Bool := do
  if (← sign) = some wanted then
    skip
    return true
  else return false

def expect (wanted : Sign) : Read Unit := do
  if !(← takeIf wanted) then failure

def giveName (name : List Char) : Read Nat :=
  modifyGet fun reader =>
    let number := reader.names.length
    (number, { reader with names := (Text.ofChars name, number) :: reader.names })

def tagNamed (name : TagName) : Read Text := do
  match name.resolve? (← get).handles with
  | some tag => return tag
  | none => failure

end Read

open Read

structure Properties where
  number : Option Nat
  tag : Option Text

def properties : Read Properties := do
  match ← sign with
  | some (.anchor name) =>
      skip
      match ← sign with
      | some (.tag given) =>
          skip
          return ⟨some (← giveName name), some (← tagNamed given)⟩
      | _ => return ⟨some (← giveName name), none⟩
  | some (.tag given) =>
      skip
      match ← sign with
      | some (.anchor name) =>
          skip
          return ⟨some (← giveName name), some (← tagNamed given)⟩
      | _ => return ⟨none, some (← tagNamed given)⟩
  | _ => return ⟨none, none⟩

def omitted (followers : List Sign) : Read Bool := do
  match ← sign with
  | some sign => return followers.contains sign
  | none => return true

mutual

/-- A node. Block collections only stand in blocks, and a block sequence need not be indented below
its key. Every step uses up a token or goes one step down in the grammar, which bounds the fuel. -/
def node (block indentless : Bool) : (fuel : Nat) → Read Node
  | 0 => failure
  | fuel + 1 => do
      let start ← line
      match ← sign with
      | some (.reference name) =>
          skip
          match (← get).names.lookup (Text.ofChars name) with
          | some number => return .reference (Text.ofChars name) number start
          | none => failure
      | _ =>
          let given ← properties
          let found ← content block indentless given start fuel
          match given.number with
          | some number =>
              modify fun reader => { reader with numbered := (number, found) :: reader.numbered }
          | none => pure ()
          return found

/-- What a node is made of. Only a node with a name or a tag can be left out here. -/
def content (block indentless : Bool) (given : Properties) (start : Nat) :
    (fuel : Nat) → Read Node
  | 0 => failure
  | fuel + 1 => do
      let tag := given.tag.bind givenTag
      let leftOut : Read Node :=
        if given.number.isSome || given.tag.isSome then return .scalar [] true tag start
        else failure
      match ← sign with
      | some (.scalar value plain) =>
          skip
          return .scalar (Text.ofChars value) plain tag start
      | some .flowSequenceStart =>
          skip
          return .sequence (← flowItems true fuel) tag start
      | some .flowMappingStart =>
          skip
          return .mapping (← flowEntries true fuel) tag start
      | some .blockEntry =>
          if indentless then return .sequence (← plainItems fuel) tag start else leftOut
      | some .sequenceStart =>
          if block then
            skip
            return .sequence (← items fuel) tag start
          else leftOut
      | some .mappingStart =>
          if block then
            skip
            return .mapping (← entries fuel) tag start
          else leftOut
      | _ => leftOut

def items : (fuel : Nat) → Read (List Node)
  | 0 => failure
  | fuel + 1 => do
      let start ← line
      if ← takeIf .blockEntry then
        let item ← if ← omitted [.blockEntry, .blockEnd] then pure (.empty start)
          else node true false fuel
        return item :: (← items fuel)
      else
        expect .blockEnd
        return []

/-- The entries of a block sequence that is not indented. -/
def plainItems : (fuel : Nat) → Read (List Node)
  | 0 => failure
  | fuel + 1 => do
      let start ← line
      if ← takeIf .blockEntry then
        let item ← if ← omitted [.blockEntry, .key, .value, .blockEnd] then pure (.empty start)
          else node true false fuel
        return item :: (← plainItems fuel)
      else return []

def entries : (fuel : Nat) → Read (List (Node × Node))
  | 0 => failure
  | fuel + 1 => do
      let start ← line
      if ← takeIf .key then
        let key ← if ← omitted [.key, .value, .blockEnd] then pure (.empty start)
          else node true true fuel
        let middle ← line
        let value ← if ← takeIf .value then
            if ← omitted [.key, .value, .blockEnd] then pure (.empty middle)
            else node true true fuel
          else pure (.empty middle)
        return (key, value) :: (← entries fuel)
      else
        expect .blockEnd
        return []

/-- The items of a flow sequence. A key inside it makes a mapping of one entry; where the key is
left out, the token after its mark goes with it. -/
def flowItems (first : Bool) : (fuel : Nat) → Read (List Node)
  | 0 => failure
  | fuel + 1 => do
      if ← takeIf .flowSequenceEnd then return []
      if !first then expect .flowEntry
      if ← takeIf .flowSequenceEnd then return []
      let start ← line
      let item ← if ← takeIf .key then
          let key ← if ← omitted [.value, .flowEntry, .flowSequenceEnd] then
              skip
              pure (.empty start)
            else node false false fuel
          let value ← if ← takeIf .value then
              if ← omitted [.flowEntry, .flowSequenceEnd] then pure (.empty start)
              else node false false fuel
            else pure (.empty start)
          pure (.mapping [(key, value)] none start)
        else node false false fuel
      return item :: (← flowItems false fuel)

def flowEntries (first : Bool) : (fuel : Nat) → Read (List (Node × Node))
  | 0 => failure
  | fuel + 1 => do
      if ← takeIf .flowMappingEnd then return []
      if !first then expect .flowEntry
      if ← takeIf .flowMappingEnd then return []
      let start ← line
      let (key, value) ← if ← takeIf .key then
          let key ← if ← omitted [.value, .flowEntry, .flowMappingEnd] then pure (.empty start)
            else node false false fuel
          let value ← if ← takeIf .value then
              if ← omitted [.flowEntry, .flowMappingEnd] then pure (.empty start)
              else node false false fuel
            else pure (.empty start)
          pure (key, value)
        else pure (← node false false fuel, .empty start)
      return (key, value) :: (← flowEntries false fuel)

end

/-- Takes the directives before a document and tells whether there were any. The version is told at
most once, and so is what each handle stands for. -/
def directives : (fuel : Nat) → (versioned seen : Bool) → Read Bool
  | 0, _, _ => failure
  | fuel + 1, versioned, seen => do
      match ← sign with
      | some (.version major minor) =>
          if versioned || major ≠ 1 || minor ≠ 1 then failure
          skip
          directives fuel true true
      | some (.tagHandle given) =>
          if (← get).handles.any (·.handle == given.handle) then failure
          modify fun reader => { reader with handles := given :: reader.handles }
          skip
          directives fuel versioned true
      | _ => return seen

def rootNode (fuel : Nat) : Read (Option Node) := do
  let declared ← directives fuel false false
  modify fun reader => { reader with handles := reader.handles ++ standardHandles }
  match ← sign with
  | none => if declared then failure else return none
  | some .documentStart =>
      let start ← line
      skip
      match ← sign with
      | none | some .documentStart | some .documentEnd | some (.version _ _)
      | some (.tagHandle _) => return some (.empty start)
      | _ => return some (← node true false fuel)
  | _ => if declared then failure else return some (← node true false fuel)

/-- Reads the first document of a source. The outer option tells whether its form is right. -/
def parse (source : Text) : Option (Option Document) :=
  match tokens? source with
  | none => none
  | some (tokens, complete) =>
      match (rootNode (4 * tokens.length + 8)).run ⟨tokens, [], [], []⟩ with
      | none => none
      | some (root, left) =>
          if !complete && left.tokens.isEmpty then none
          else some (root.map fun root => ⟨root, left.numbered, tokens.length⟩)

end Yaml
end Rover
