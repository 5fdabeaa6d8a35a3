import Mathlib.Logic.IsEmpty.Defs
import Rover.Cli

/-!
What a command line gives. Flags are read back in every way that they can be written, what is left
of the arguments starts behind them, and a command line leads to a task exactly if its flags and its
command can be told apart like this.
-/

namespace Rover
namespace Cli

inductive Dashes : Text → Prop where
  | one : Dashes (text "-")
  | two : Dashes (text "--")

inductive Spelled (known : List Flag) : List Text → Setting → Prop where
  | bare {dashes : Text} {setting : Setting} (flag : Flag) (dashed : Dashes dashes)
      (member : flag ∈ known) (switch : flag.isSwitch = true)
      (set : flag.setting (text "true") = .ok setting) :
      Spelled known [dashes ++ flag.name] setting
  | joined {dashes : Text} {setting : Setting} (flag : Flag) (value : Text) (dashed : Dashes dashes)
      (member : flag ∈ known) (set : flag.setting value = .ok setting) :
      Spelled known [dashes ++ (flag.name ++ equalsSign :: value)] setting
  | apart {dashes : Text} {setting : Setting} (flag : Flag) (value : Text) (dashed : Dashes dashes)
      (member : flag ∈ known) (noSwitch : flag.isSwitch = false)
      (set : flag.setting value = .ok setting) :
      Spelled known [dashes ++ flag.name, value] setting

example : Spelled runFlags [text "--strict=false"] (.strict false) :=
  .joined .strict (text "false") .two (by decide) rfl

/-- The settings that the flags at the start of a command line make, and the arguments left behind
them. -/
inductive Reads (known : List Flag) : List Text → List Setting → List Text → Prop where
  | nothing : Reads known [] [] []
  | plain {argument : Text} {rest : List Text} (plain : looksLikeFlag argument = false) :
      Reads known (argument :: rest) [] (argument :: rest)
  | terminator {rest : List Text} : Reads known (text "--" :: rest) [] rest
  | flag {words arguments rest : List Text} {setting : Setting} {settings : List Setting}
      (spelled : Spelled known words setting) (more : Reads known arguments settings rest) :
      Reads known (words ++ arguments) (setting :: settings) rest

def Flag.all : List Flag :=
  [.config, .strict, .scale, .noColor, .help .long, .help .short, .version .long, .version .short]

theorem Flag.mem_all (flag : Flag) : flag ∈ Flag.all := by
  rcases flag with _ | _ | _ | _ | (_ | _) | (_ | _) <;> decide

theorem Flag.name_injective {first second : Flag} (same : first.name = second.name) :
    first = second := by
  have each : ∀ first ∈ Flag.all, ∀ second ∈ Flag.all, first.name = second.name →
      first = second := by
    decide
  exact each first first.mem_all second second.mem_all same

theorem Flag.name_starts (flag : Flag) :
    ∃ first rest, flag.name = first :: rest ∧ first ≠ dash ∧ first ≠ equalsSign := by
  rcases flag with _ | _ | _ | _ | (_ | _) | (_ | _) <;> exact ⟨_, _, rfl, by decide, by decide⟩

theorem Flag.name_whole (flag : Flag) : ∀ byte ∈ flag.name, (byte != equalsSign) = true := by
  have each : ∀ flag ∈ Flag.all, flag.name.all (· != equalsSign) = true := by decide
  exact List.all_eq_true.mp (each flag flag.mem_all)

theorem named?_iff {known : List Flag} {name : Text} {flag : Flag} :
    Flag.named? known name = some flag ↔ flag ∈ known ∧ flag.name = name := by
  unfold Flag.named?
  constructor
  · intro found
    exact ⟨List.mem_of_find?_eq_some found, by simpa using List.find?_some found⟩
  · rintro ⟨member, rfl⟩
    cases found : known.find? (·.name == flag.name) with
    | none => exact absurd (List.find?_eq_none.mp found flag member) (by simp)
    | some other =>
        have same := List.find?_some found
        rw [Flag.name_injective (beq_iff_eq.mp same)]

section Argument

variable {dashes argument name : Text} {value : Option Text}

def joint : Option Text → Text
  | none => []
  | some value => equalsSign :: value

theorem ofText_dashes (dashed : Dashes dashes) {first : UInt8} {rest : Text}
    (other : first ≠ dash) :
    Argument.ofText (dashes ++ first :: rest) = Argument.ofFlag (first :: rest) := by
  cases dashed with
  | one =>
      show Argument.ofText (dash :: first :: rest) = _
      rw [Argument.ofText, if_neg (by simp), if_neg other]
  | two => rfl

theorem ofText_joint (dashed : Dashes dashes) (flag : Flag) (value : Option Text) :
    Argument.ofText (dashes ++ (flag.name ++ joint value)) = .flag flag.name value := by
  obtain ⟨first, rest, same, noDash, noEquals⟩ := flag.name_starts
  have shown : flag.name ++ joint value =
      first :: (rest ++ joint value) := by rw [same, List.cons_append]
  rw [shown, ofText_dashes dashed noDash, Argument.ofFlag, if_neg (by simp [noDash, noEquals]),
    ← shown,
    List.takeWhile_append_of_pos flag.name_whole, List.dropWhile_append_of_pos flag.name_whole]
  cases value with
  | none => rw [joint, List.takeWhile_nil, List.append_nil]; rfl
  | some value =>
      rw [joint, List.takeWhile_cons_of_neg (by simp), List.dropWhile_cons_of_neg (by simp),
        List.append_nil]
      rfl

theorem dashes_of_ofText (shown : Argument.ofText argument = .flag name value) :
    ∃ dashes, Dashes dashes ∧ argument = dashes ++ (name ++ joint value) := by
  have body {rest : Text} (read : Argument.ofFlag rest = .flag name value) :
      rest = name ++ joint value := by
    unfold Argument.ofFlag at read
    split at read
    · cases read
    · next first others =>
        split at read
        · cases read
        · have parts :=
            List.takeWhile_append_dropWhile (p := (· != equalsSign)) (l := first :: others)
          have stop := List.head?_dropWhile_not (· != equalsSign) (first :: others)
          obtain ⟨rfl, rfl⟩ := Argument.flag.inj read
          refine parts.symm.trans (congrArg _ ?_)
          cases behind : (first :: others).dropWhile (· != equalsSign) with
          | nil => rfl
          | cons byte value =>
              rw [behind] at stop
              rw [show byte = equalsSign by simpa using stop]
              rfl
  unfold Argument.ofText at shown
  split at shown
  · split at shown
    · cases shown
    · next dashed =>
        rw [Decidable.not_not] at dashed
        split at shown
        · next again => exact ⟨_, .two, by rw [dashed, again, body shown]; rfl⟩
        · exact ⟨_, .one, by rw [dashed, body shown]; rfl⟩
  · cases shown

theorem ofFlag_ne_plain (body : Text) : Argument.ofFlag body ≠ .plain := by
  intro plain
  unfold Argument.ofFlag at plain
  split at plain
  · cases plain
  · split at plain <;> cases plain

theorem ofText_eq_plain_iff :
    Argument.ofText argument = .plain ↔ looksLikeFlag argument = false := by
  rcases argument with _ | ⟨first, _ | ⟨second, rest⟩⟩
  · exact ⟨fun _ => rfl, fun _ => rfl⟩
  · refine ⟨fun _ => ?_, fun _ => rfl⟩
    rw [looksLikeFlag, Text.startsWith, List.isPrefixOf, List.isPrefixOf, Bool.and_true]
    by_cases dashed : dash = first <;> simp [dashed]
  · have shown : looksLikeFlag (first :: second :: rest) = (dash == first) := by
      simp [looksLikeFlag, Text.startsWith, List.isPrefixOf]
    rw [shown, Argument.ofText]
    by_cases dashed : first = dash
    · subst dashed
      rw [if_neg (by simp)]
      constructor
      · intro plain
        split at plain <;> exact absurd plain (ofFlag_ne_plain _)
      · simp
    · rw [if_pos dashed]
      exact ⟨fun _ => by simpa using Ne.symm dashed, fun _ => rfl⟩

theorem ofText_eq_terminator_iff :
    Argument.ofText argument = .terminator ↔ argument = text "--" := by
  constructor
  · intro shown
    have ends {body : Text} (ends : Argument.ofFlag body = .terminator) : body = [] := by
      unfold Argument.ofFlag at ends
      split at ends
      · rfl
      · split at ends <;> cases ends
    unfold Argument.ofText at shown
    split at shown
    · split at shown
      · cases shown
      · next dashed =>
          rw [Decidable.not_not] at dashed
          split at shown
          · next again => rw [dashed, again, ends shown]; rfl
          · cases ends shown
    · cases shown
  · rintro rfl
    rfl

end Argument

section Reading

variable {known : List Flag} {words arguments rest : List Text} {setting : Setting}
  {settings : List Setting}

theorem readFlags_spelled (spelled : Spelled known words setting) (rest : List Text) :
    readFlags known (words ++ rest) = (readFlags known rest).add setting := by
  cases spelled with
  | bare flag dashed member switch set =>
      have shown := ofText_joint dashed flag none
      rw [joint, List.append_nil] at shown
      rw [List.singleton_append, readFlags, shown]
      dsimp only
      rw [named?_iff.mpr ⟨member, rfl⟩]
      dsimp only
      rw [if_pos switch]
      dsimp only [Option.getD]
      rw [set]
  | joined flag value dashed member set =>
      rw [List.singleton_append, readFlags, ← joint, ofText_joint dashed flag (some value)]
      dsimp only
      rw [named?_iff.mpr ⟨member, rfl⟩]
      dsimp only [Option.getD]
      rw [ite_self]
      dsimp only
      rw [set]
  | apart flag value dashed member noSwitch set =>
      have shown := ofText_joint dashed flag none
      rw [joint, List.append_nil] at shown
      rw [List.cons_append, List.singleton_append, readFlags, shown]
      dsimp only
      rw [named?_iff.mpr ⟨member, rfl⟩]
      dsimp only
      rw [if_neg (by simp [noSwitch])]
      dsimp only
      rw [set]

theorem readFlags_of_reads (reads : Reads known arguments settings rest) :
    readFlags known arguments = ⟨settings, rest, none⟩ := by
  induction reads with
  | nothing => rfl
  | plain plain => rw [readFlags, ofText_eq_plain_iff.mpr plain]
  | terminator => rfl
  | flag spelled _ ih =>
      rw [readFlags_spelled spelled, ih]
      rfl

theorem spelled_alone {argument name value : Text} {joined : Option Text} {flag : Flag}
    (shown : Argument.ofText argument = .flag name joined)
    (named : Flag.named? known name = some flag)
    (used : (if flag.isSwitch then some (joined.getD (text "true")) else joined) = some value)
    (set : flag.setting value = .ok setting) : Spelled known [argument] setting := by
  obtain ⟨dashes, dashed, rfl⟩ := dashes_of_ofText shown
  obtain ⟨member, rfl⟩ := named?_iff.mp named
  cases joined with
  | none =>
      rw [joint, List.append_nil]
      split at used
      · next switch =>
          cases used
          exact .bare _ dashed member switch set
      · cases used
  | some joined =>
      obtain rfl : joined = value := by
        split at used <;> exact Option.some.inj used
      exact .joined _ _ dashed member set

theorem spelled_apart {argument name value : Text} {joined : Option Text} {flag : Flag}
    (shown : Argument.ofText argument = .flag name joined)
    (named : Flag.named? known name = some flag)
    (used : (if flag.isSwitch then some (joined.getD (text "true")) else joined) = none)
    (set : flag.setting value = .ok setting) : Spelled known [argument, value] setting := by
  obtain ⟨dashes, dashed, rfl⟩ := dashes_of_ofText shown
  obtain ⟨member, rfl⟩ := named?_iff.mp named
  split at used
  · cases used
  · next noSwitch =>
      subst used
      rw [joint, List.append_nil]
      exact .apart _ _ dashed member (by simpa using noSwitch) set

theorem reads_of_readFlags (known : List Flag) (arguments : List Text)
    (fine : (readFlags known arguments).error = none) :
    Reads known arguments (readFlags known arguments).settings
      (readFlags known arguments).arguments := by
  fun_induction readFlags known arguments with
  | case1 => exact .nothing
  | case2 argument rest plain => exact .plain (ofText_eq_plain_iff.mp plain)
  | case3 argument rest ends =>
      rw [ofText_eq_terminator_iff.mp ends]
      exact .terminator
  | case6 argument rest name joined shown flag named value used setting set ih =>
      exact .flag (spelled_alone shown named used set) (ih fine)
  | case9 argument name joined shown flag named used value rest setting set ih =>
      exact .flag (spelled_apart shown named used set) (ih fine)
  -- In the other cases an error stopped the reading.
  | case4 | case5 | case7 | case8 | case10 => cases fine

theorem Reads.unique {others : List Text} {more : List Setting}
    (reads : Reads known arguments settings rest)
    (again : Reads known arguments more others) : settings = more ∧ rest = others := by
  have same := (readFlags_of_reads reads).symm.trans (readFlags_of_reads again)
  exact ⟨congrArg FlagReading.settings same, congrArg FlagReading.arguments same⟩

end Reading

/-- A reader of flags that takes for a flag what is spelled as one, and nothing else. -/
def FlagReader.Faithful [FlagReader] : Prop :=
  ∀ known arguments settings rest, FlagReader.read known arguments = ⟨settings, rest, none⟩ ↔
    Reads known arguments settings rest

theorem readFlags_faithful : FlagReader.Faithful := by
  intro known arguments settings rest
  constructor
  · intro read
    have fine : (readFlags known arguments).error = none := congrArg FlagReading.error read
    have reads := reads_of_readFlags known arguments fine
    rwa [show readFlags known arguments = _ from read] at reads
  · exact readFlags_of_reads

theorem FlagReader.Faithful.reads [FlagReader] {known : List Flag} {arguments : List Text}
    (faithful : FlagReader.Faithful) (fine : (FlagReader.read known arguments).error = none) :
    Reads known arguments (FlagReader.read known arguments).settings
      (FlagReader.read known arguments).arguments := by
  refine (faithful _ _ _ _).mp ?_
  rw [← fine]

/-- Flags that do not ask for help. -/
structure Quiet (settings : List Setting) : Prop where
  oneForm : bothForms? settings = none
  noHelp : asksHelp settings = false

/-- What a command has done with a source file or a session. -/
def Command.action? : Command → Option Action
  | .run => some .run
  | .check => some .check
  | .repl => some .repl
  | .help => none

/-- A command line that asks for something to be done, with the settings that its flags make in
front of the command and after it, and the arguments that are left. Flags without a command count in
both places. -/
inductive Asks (terminal : Bool) :
    List Text → Action → List Setting → List Setting → List Text → Prop where
  | session {arguments : List Text} {settings : List Setting}
      (front : Reads globalFlags arguments settings []) (quiet : Quiet settings)
      (noVersion : asksVersion settings = false) (interactive : terminal = true) :
      Asks terminal arguments .repl settings settings []
  | source {arguments others : List Text} {name : Text} {settings : List Setting}
      (front : Reads globalFlags arguments settings (name :: others)) (quiet : Quiet settings)
      (noVersion : asksVersion settings = false) (noCommand : Command.named? name = none) :
      Asks terminal arguments .run settings settings (name :: others)
  | command {arguments others names : List Text} {name : Text} {inFront after : List Setting}
      {command : Command} {action : Action}
      (front : Reads globalFlags arguments inFront (name :: others)) (quiet : Quiet inFront)
      (noVersion : asksVersion inFront = false) (named : Command.named? name = some command)
      (does : command.action? = some action)
      (behind : Reads (command.ownFlags ++ helpFlags) (flagsFirst others) after names)
      (quietBehind : Quiet after) :
      Asks terminal arguments action inFront after names

section Request

variable {terminal : Bool} {arguments names left : List Text} {inFront after : List Setting}
  {task : Task}
  {command : Command} {action : Action} {flags : Flags}

theorem quiet_of_task {reading : FlagReading} {clashed broken : FlagError → Report} {help : Report}
    {goal : Request}
    (requested : (match bothForms? reading.settings, reading.error with
      | some error, _ => .answered (clashed error)
      | none, some error => .answered (broken error)
      | none, none => if asksHelp reading.settings then .answered help else goal) =
        Request.task task) :
    Quiet reading.settings ∧ reading.error = none ∧ goal = .task task := by
  cases clash : bothForms? reading.settings with
  | some error => simp [clash] at requested
  | none =>
      cases broke : reading.error with
      | some error => simp [clash, broke] at requested
      | none =>
          simp only [clash, broke] at requested
          split at requested
          · cases requested
          · next noHelp => exact ⟨⟨clash, by simpa using noHelp⟩, rfl, requested⟩

variable [FlagReader]

theorem command_request_of_reads (faithful : FlagReader.Faithful)
    (reads : Reads (command.ownFlags ++ helpFlags) (flagsFirst arguments) after names)
    (quiet : Quiet after) (does : command.action? = some action) :
    command.request flags arguments = .task ⟨action, flags, .ofSettings after, names⟩ := by
  unfold Command.request
  rw [(faithful _ _ _ _).mpr reads]
  dsimp only
  rw [quiet.oneForm]
  dsimp only
  rw [if_neg (by simp [quiet.noHelp])]
  cases command <;> cases does <;> rfl

theorem reads_of_command_request (faithful : FlagReader.Faithful)
    (requested : command.request flags arguments = .task task) :
    ∃ after, Reads (command.ownFlags ++ helpFlags) (flagsFirst arguments) after task.arguments ∧
      Quiet after ∧ command.action? = some task.action ∧ task.inFront = flags ∧
      task.after = .ofSettings after := by
  obtain ⟨quiet, fine, goal⟩ := quiet_of_task requested
  have reads := faithful.reads fine
  cases command <;> cases goal <;> exact ⟨_, reads, quiet, rfl, rfl, rfl⟩

def requestLeft (terminal : Bool) (flags : Flags) : List Text → Request
  | [] => if terminal then .task ⟨.repl, flags, flags, []⟩ else .answered (shown programHelp 1)
  | first :: rest =>
      match Command.named? first with
      | some command => command.request flags rest
      | none => .task ⟨.run, flags, flags, first :: rest⟩

theorem request_of_reads (faithful : FlagReader.Faithful)
    (front : Reads globalFlags arguments inFront left) (quiet : Quiet inFront)
    (noVersion : asksVersion inFront = false) :
    request terminal arguments = requestLeft terminal (.ofSettings inFront) left := by
  unfold request
  rw [(faithful _ _ _ _).mpr front]
  dsimp only
  rw [quiet.oneForm]
  dsimp only
  rw [if_neg (by simp [quiet.noHelp]), if_neg (by simp [noVersion])]
  cases left <;> rfl

theorem request_of_asks (faithful : FlagReader.Faithful)
    (asks : Asks terminal arguments action inFront after names) :
    request terminal arguments = .task ⟨action, .ofSettings inFront, .ofSettings after, names⟩ := by
  cases asks with
  | session front quiet noVersion interactive =>
      rw [request_of_reads faithful front quiet noVersion]
      exact if_pos interactive
  | source front quiet noVersion noCommand =>
      rw [request_of_reads faithful front quiet noVersion, requestLeft, noCommand]
  | command front quiet noVersion named does behind quietBehind =>
      rw [request_of_reads faithful front quiet noVersion, requestLeft, named]
      exact command_request_of_reads faithful behind quietBehind does

theorem asks_of_request (faithful : FlagReader.Faithful)
    (requested : request terminal arguments = .task task) :
    ∃ inFront after, Asks terminal arguments task.action inFront after task.arguments ∧
      task.inFront = .ofSettings inFront ∧ task.after = .ofSettings after := by
  obtain ⟨quiet, fine, goal⟩ := quiet_of_task requested
  have front := faithful.reads fine
  split at goal
  · cases goal
  · next noVersion =>
      rw [Bool.not_eq_true] at noVersion
      generalize (FlagReader.read globalFlags arguments).arguments = left at front goal
      cases left with
      | nil =>
          dsimp only at goal
          split at goal
          · next interactive =>
              cases goal
              exact ⟨_, _, .session front quiet noVersion interactive, rfl, rfl⟩
          · cases goal
      | cons first rest =>
          dsimp only at goal
          split at goal
          · next command named =>
              obtain ⟨after, behind, quietBehind, does, same, same'⟩ :=
                reads_of_command_request faithful goal
              exact ⟨_, _, .command front quiet noVersion named does behind quietBehind, same,
                same'⟩
          · next noCommand =>
              cases goal
              exact ⟨_, _, .source front quiet noVersion noCommand, rfl, rfl⟩

end Request

end Cli
end Rover
