import Rover.Proofs.Checking
import Rover.Proofs.Flags

/-!
Flags beside the configuration. The scale is that of the flags, those after the command before those
in front of it, and that of the configuration only if no flag gives one. The strictness follows the
flags in the same way where they switch it on; a flag that switches it off does nothing against the
configuration, nor against a flag in front of the command.
-/

namespace Rover
namespace Cli

def Flags.over (after inFront : Flags) : Flags where
  config := after.config <|> inFront.config
  strict := after.strict <|> inFront.strict
  scale := after.scale <|> inFront.scale
  noColor := after.noColor <|> inFront.noColor

namespace Settings

section Combine

variable {config : Config} {inFront after : Flags}

theorem strict_combine :
    (combine config inFront after).strict =
      match (after.over inFront).strict with
      | none => config.strict
      | some true => true
      | some false => config.strict || inFront.strict.getD false := by
  rw [combine, Flags.over]
  cases after.strict with
  | none => rcases inFront.strict with _ | _ | _ <;> simp
  | some on => cases on <;> simp

theorem load_eq [Config.Decoder] {files : Files Id} {directory source : Text} :
    load files directory inFront after source =
      match Config.resolve files directory ((after.over inFront).config.getD [])
        (origin source) with
      | .ok config => Except.ok (combine config inFront after)
      | .error error => .error error :=
  rfl

theorem load_of_resolve [Config.Decoder] {files : Files Id} {directory source : Text}
    (resolved : Config.resolve files directory ((after.over inFront).config.getD [])
      (origin source) = .ok config) :
    load files directory inFront after source = .ok (combine config inFront after) := by
  rw [load_eq, resolved]

end Combine
end Settings

/-- A command line that leads to a task can be told apart, and the task goes by its flags before it
goes by the configuration, but for a flag that switches strictness off. -/
theorem flags_settle [Config.Decoder] [FlagReader] (faithful : FlagReader.Faithful)
    {terminal : Bool} {arguments : List Text} {task : Task}
    (asked : request terminal arguments = .task task) :
    (∃ inFront after, Asks terminal arguments task.action inFront after task.arguments ∧
      task.inFront = .ofSettings inFront ∧ task.after = .ofSettings after) ∧
    ∀ (files : Files Id) (directory source : Text) (config : Config),
      Config.resolve files directory ((task.after.over task.inFront).config.getD [])
        (Settings.origin source) = .ok config →
      ∃ settings, Settings.load files directory task.inFront task.after source = .ok settings ∧
        settings.config = config ∧
        settings.scale = (task.after.over task.inFront).scale.getD config.scale ∧
        ((task.after.over task.inFront).strict = none → settings.strict = config.strict) ∧
        ((task.after.over task.inFront).strict = some true → settings.strict = true) ∧
        ((task.after.over task.inFront).strict = some false →
          settings.strict = (config.strict || task.inFront.strict.getD false)) := by
  refine ⟨asks_of_request faithful asked, fun files directory source config resolved => ?_⟩
  refine ⟨_, Settings.load_of_resolve resolved, rfl, rfl, ?_, ?_, ?_⟩
  all_goals
    intro given
    rw [Settings.strict_combine, given]

def strictFile : Files Id where
  stat path := if path = text "/rover.yml" then .ok .file else .error .notFound
  read path :=
    if path = text "/rover.yml" then .ok (text "\"strict\": \"yes\"\n") else .error .notFound
  create _ _ := false

def strictConfig : Config :=
  { Config.default with path := text "/rover.yml", strict := true }

def strictDocument : Yaml.Document :=
  ⟨.mapping [(.scalar (text "strict") false none 1, .scalar (text "yes") false none 1)] none 1,
    [], 6⟩

theorem decode_strictDocument :
    Config.Decoder.decode (text "\"strict\": \"yes\"\n") = .ok ⟨some true, none, none, none⟩ := by
  have parsed : Yaml.parse (text "\"strict\": \"yes\"\n") = some (some strictDocument) := by cbv
  have read : Config.fields strictDocument = .ok ⟨some true, none, none, none⟩ := rfl
  show Config.decodeDocument _ = _
  rw [Config.decodeDocument, parsed]
  dsimp only [Option.map, Option.getD]
  rw [read]

theorem resolve_strictFile :
    Config.resolve strictFile (text "/") []
      (Settings.origin (text "main.rv")) = .ok strictConfig := by
  have valid : (Config.ofFields (text "/rover.yml") ⟨some true, none, none, none⟩).issues = [] :=
    Config.issues_eq_nil_iff.mpr ⟨Config.default_sound.color, Config.default_sound.scale⟩
  show Config.decode (text "/rover.yml") (text "\"strict\": \"yes\"\n") = _
  rw [Config.decode, decode_strictDocument]
  dsimp only
  rw [valid]
  rfl

theorem flags_settle_scaled :
    ∃ task, request false
      [text "--float-scale=inf", text "run", text "main.rv", text "--strict"] = .task task ∧
      ∃ settings, Settings.load strictFile (text "/") task.inFront task.after
        (text "main.rv") = .ok settings ∧
        settings.scale = Binary64.infinity false ∧ settings.strict = true := by
  have number : Reading.float (text "inf") = .ok (Binary64.infinity false) := by cbv
  have scaled : Spelled globalFlags [text "--float-scale=inf"] (.scale (Binary64.infinity false)) :=
    .joined .scale (text "inf") .two (by decide) (by rw [Flag.setting, number])
  have strict : Spelled (runFlags ++ helpFlags) [text "--strict"] (.strict true) :=
    .bare .strict .two (by decide) rfl rfl
  have behind : Reads (runFlags ++ helpFlags)
      (flagsFirst [text "main.rv", text "--strict"]) [.strict true]
      [text "main.rv"] := by
    have moved : flagsFirst [text "main.rv", text "--strict"] =
        [text "--strict"] ++ [text "main.rv"] := rfl
    rw [moved]
    exact .flag strict (.plain rfl)
  have named : Command.named? (text "run") = some .run := rfl
  have asks : Asks false [text "--float-scale=inf", text "run", text "main.rv", text "--strict"]
      .run [.scale (Binary64.infinity false)] [.strict true] [text "main.rv"] :=
    .command (.flag scaled (.plain rfl)) ⟨rfl, rfl⟩ rfl named rfl behind ⟨rfl, rfl⟩
  have asked := request_of_asks readFlags_faithful asks
  obtain ⟨settings, loaded, -, scale, -, on, -⟩ :=
    (flags_settle readFlags_faithful asked).2 strictFile (text "/")
      (text "main.rv") strictConfig resolve_strictFile
  exact ⟨_, asked, settings, loaded, scale, on rfl⟩

/-- Strictness is not switched off by a flag that says so, neither against the configuration nor
against a flag in front of the command. -/
theorem strict_not_switched_off :
    (∃ task, request false [text "run", text "--strict=false", text "main.rv"] = .task task ∧
      (task.after.over task.inFront).strict = some false ∧
      ∃ settings, Settings.load strictFile (text "/") task.inFront task.after
        (text "main.rv") = .ok settings ∧
        settings.strict = true) ∧
    ∃ task, request false
      [text "--strict", text "run", text "--strict=false", text "main.rv"] = .task task ∧
      (task.after.over task.inFront).strict = some false ∧
      (Settings.combine Config.default task.inFront task.after).strict = true := by
  refine ⟨⟨_, rfl, rfl, _, Settings.load_of_resolve resolve_strictFile, rfl⟩, _, rfl, rfl, rfl⟩

end Cli
end Rover
