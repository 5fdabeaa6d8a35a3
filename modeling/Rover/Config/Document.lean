import Rover.Config
import Rover.Yaml.Field

/-!
A file of settings is one YAML document, a mapping with a field for each setting. A document with
unknown or repeated fields, or with values of other types, is refused.
-/

namespace Rover
namespace Config

inductive Field where
  | strict
  | scale
  | color
  | historyFile
  deriving DecidableEq, Repr

namespace Field

def all : List Field := [strict, scale, color, historyFile]

def name : Field → Text
  | strict => text "strict"
  | scale => text "float_comparison_scale"
  | color => text "color"
  | historyFile => text "history_file"

def ofName? (name : Text) : Option Field :=
  all.find? (·.name == name)

end Field

def record : Yaml.Record where
  name := text "driver.configFile"
  fields := Field.all.map Field.name

def Fields.put (fields : Fields) (document : Yaml.Document) (field : Field) (node : Yaml.Node) :
    Except Yaml.Refusal Fields :=
  match field with
  | .strict => (Yaml.takeBool document node).map fun value => { fields with strict := value }
  | .scale => (Yaml.takeFloat document node).map fun value => { fields with scale := value }
  | .color => (Yaml.takeText document false node).map fun value => { fields with color := value }
  | .historyFile =>
      (Yaml.takeText document true node).map fun value => { fields with historyFile := value }

def takeFinding (document : Yaml.Document) (taken : Fields × List Yaml.Problem) :
    Yaml.Finding → Option (Fields × List Yaml.Problem)
  | .problems found => some (taken.1, taken.2 ++ found)
  | .field name node =>
      match Field.ofName? name with
      | none => some taken
      | some field =>
          match taken.1.put document field node with
          | .ok fields => some (fields, taken.2)
          | .error (.problems found) => some (taken.1, taken.2 ++ found)
          | .error .malformed => none

def fields (document : Yaml.Document) : Except Yaml.Refusal Fields :=
  match document.root with
  | .mapping entries tag line =>
      match Yaml.gather document record (document.size + 1) none (.mapping entries tag line) with
      | none => .error .malformed
      | some (findings, _) =>
          match findings.foldlM (takeFinding document) (Fields.none, []) with
          | none => .error .malformed
          | some (found, []) => .ok found
          | some (_, problems) => .error (.problems problems)
  | root =>
      (Yaml.take document ⟨record.name, false⟩ (fun _ _ => none) root).map fun
        | none => Fields.none
        | some fields => fields

/-- Where in a malformed document the fault lies, and of which kind it is, is not told. -/
def malformedDocument : Text := text "yaml: malformed document"

/-- Contents without any document give no field. -/
def decodeDocument (contents : Text) : Except Undecoded Fields :=
  match Yaml.parse contents with
  | none => .error (.malformed malformedDocument)
  | some document =>
      match (document.map fields).getD (.ok Fields.none) with
      | .ok found => .ok found
      | .error .malformed => .error (.malformed malformedDocument)
      | .error (.problems found) => .error (.problems found)

instance : Decoder := ⟨decodeDocument⟩

end Config
end Rover
