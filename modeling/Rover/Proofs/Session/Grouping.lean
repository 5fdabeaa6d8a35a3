import Rover.Session

/-!
A session takes its lines in groups. A group ends with the line that closes its brackets, when the
user gives it up, or with the input. What a session does with its answers is what it does with the
sources that the groups make, one after another.
-/

namespace Rover.Session

inductive Ending where
  /-- The last line closed the brackets. -/
  | complete
  | aborted
  /-- The input ended. -/
  | cut
  deriving DecidableEq

/-- Lines that a session collects until it goes on to the next ones. -/
structure Group where
  lines : List Text
  ending : Ending

/-- The prompt while some lines are pending. -/
def promptAfter (lines : Nat) : Text :=
  if lines = 0 then text "rover> " else text "  ...> "

def waits (lines : Nat) : List Exchange :=
  (List.range lines).map fun count => ⟨promptAfter count, []⟩

namespace Group

def answers (group : Group) : List Input :=
  group.lines.map .line ++
    match group.ending with
    | .complete => []
    | .aborted => [.aborted]
    | .cut => [.ended]

/-- What a group makes of its lines, which is nothing if they are given up. -/
def source (group : Group) : Text :=
  if group.ending = .aborted then [] else Text.join (text "\n") group.lines

def prompts (group : Group) : List Text :=
  (List.range group.answers.length).map promptAfter

def exchanges (group : Group) (events : List Event) : List Exchange :=
  waits (group.answers.length - 1) ++ [⟨promptAfter (group.answers.length - 1), events⟩]

/-- The groups of a session: brackets are open until the last line, and after it they are open only
if the group did not get to its end. -/
structure Formed (group : Group) : Prop where
  opened : ∀ lines, lines <+: group.lines → lines ≠ [] → lines ≠ group.lines →
    0 < openDepth (Text.join (text "\n") lines)
  complete : group.ending = .complete → group.lines ≠ [] ∧ openDepth group.source ≤ 0
  aborted : group.ending = .aborted → group.lines ≠ [] →
    0 < openDepth (Text.join (text "\n") group.lines)
  cut : group.ending = .cut → group.lines ≠ [] ∧ 0 < openDepth group.source

theorem Formed.answers_ne_nil {group : Group} (formed : group.Formed) : group.answers ≠ [] := by
  obtain ⟨lines, ending⟩ := group
  cases ending with
  | complete => simpa [answers] using (formed.complete rfl).1
  | aborted => simp [answers]
  | cut => simp [answers]

theorem Formed.prompts_exchanges {group : Group} (formed : group.Formed) (events : List Event) :
    (group.exchanges events).map Exchange.prompt = group.prompts := by
  have some : group.answers.length = group.answers.length - 1 + 1 := by
    have positive := List.length_pos_iff.mpr formed.answers_ne_nil
    omega
  rw [prompts, some, List.range_succ, exchanges, waits]
  simp

end Group

def Opened (lines : List Text) : Prop :=
  ∀ first, first <+: lines → first ≠ [] → 0 < openDepth (Text.join (text "\n") first)

def holding (session : Session) (lines : List Text) : Session :=
  { session with pending := Text.join (text "\n") lines }

theorem join_snoc (separator last : Text) {lines : List Text} (some : lines ≠ []) :
    Text.join separator (lines ++ [last]) = Text.join separator lines ++ separator ++ last := by
  induction lines with
  | nil => exact absurd rfl some
  | cons first rest ih =>
      cases rest with
      | nil => rfl
      | cons second rest =>
          change first ++ separator ++ Text.join separator (second :: rest ++ [last]) =
            first ++ separator ++ Text.join separator (second :: rest) ++ separator ++ last
          rw [ih (List.cons_ne_nil _ _)]
          simp only [List.append_assoc]

theorem Opened.nil : Opened [] := fun _ starts some => absurd (List.prefix_nil.mp starts) some

theorem Opened.join_eq_nil {lines : List Text} (opened : Opened lines) :
    Text.join (text "\n") lines = [] ↔ lines = [] := by
  cases lines with
  | nil => exact ⟨fun _ => rfl, fun _ => rfl⟩
  | cons first rest =>
      have positive := opened _ (List.prefix_refl _) (List.cons_ne_nil first rest)
      constructor
      · intro blank
        rw [blank] at positive
        exact absurd positive (by decide +kernel)
      · exact fun impossible => absurd impossible (List.cons_ne_nil first rest)

theorem Opened.snoc {lines : List Text} {last : Text} (opened : Opened lines)
    (more : 0 < openDepth (Text.join (text "\n") (lines ++ [last]))) :
    Opened (lines ++ [last]) := by
  intro first starts some
  rcases List.prefix_concat_iff.mp starts with same | shorter
  · rw [same]
    exact more
  · exact opened first shorter some

section Holding

variable {session : Session} {fuel : Nat} {lines : List Text}

theorem holding_isEmpty (opened : Opened lines) :
    (session.holding lines).pending.isEmpty = lines.isEmpty := by
  rw [Bool.eq_iff_iff, List.isEmpty_iff, List.isEmpty_iff]
  exact opened.join_eq_nil

theorem holding_prompt (opened : Opened lines) :
    (session.holding lines).prompt = promptAfter lines.length := by
  unfold prompt promptAfter
  rw [holding_isEmpty opened]
  cases lines with
  | nil => rfl
  | cons first rest => rfl

theorem holding_extended (opened : Opened lines) (bytes : Text) :
    (session.holding lines).extended bytes = Text.join (text "\n") (lines ++ [bytes]) := by
  unfold extended
  rw [holding_isEmpty opened]
  cases lines with
  | nil => rfl
  | cons first rest => exact (join_snoc _ _ (List.cons_ne_nil _ _)).symm

theorem prompt_of_complete (complete : session.pending = []) : session.prompt = promptAfter 0 := by
  unfold prompt
  rw [complete]
  rfl

theorem holding_nil (complete : session.pending = []) : session.holding [] = session := by
  obtain ⟨machine, options, colored, lineStart, pending, history⟩ := session
  cases complete
  rfl

end Holding

theorem accept_nil (session : Session) (fuel : Nat) :
    session.accept fuel [] = { session with pending := [] }.wrote [] .open := by
  unfold accept
  exact if_pos (by decide +kernel)

theorem obey_pending (session : Session) (name : Text) :
    (session.obey name).session.pending = session.pending := by
  unfold obey
  cases Command.ofText name <;> rfl

theorem run_pending (session : Session) (fuel : Nat) (source : Text) :
    (session.run fuel source).session.pending = session.pending := by
  unfold run
  split
  · rfl
  · dsimp only
    split <;> rfl

theorem obey_history (session : Session) (name : Text) :
    (session.obey name).session.history = session.history := by
  unfold obey
  cases Command.ofText name <;> rfl

theorem run_history (session : Session) (fuel : Nat) (source : Text) :
    (session.run fuel source).session.history = session.history := by
  unfold run
  split
  · rfl
  · dsimp only
    split <;> rfl

theorem accept_pending (session : Session) (fuel : Nat) (source : Text) :
    (session.accept fuel source).session.pending = [] := by
  unfold accept
  dsimp only
  split
  · rfl
  · split
    · exact obey_pending _ _
    · exact run_pending _ _ _

def kept (source : Text) : List Text :=
  if source.trim.isEmpty then [] else [source.replace 10 32]

theorem accept_history (session : Session) (fuel : Nat) (source : Text) :
    (session.accept fuel source).session.history = session.history ++ kept source := by
  unfold accept kept
  dsimp only
  split
  · exact (List.append_nil _).symm
  · split
    · exact obey_history _ _
    · exact run_history _ _ _

def Transcript.behind (transcript : Transcript) (exchanges : List Exchange) : Transcript :=
  { transcript with exchanges := exchanges ++ transcript.exchanges }

def playGroups (fuel unread : Nat) : Session → List Group → Transcript
  | session, [] =>
      let last := session.wrote [say (text "\n")] .closed
      ⟨[⟨promptAfter 0, last.events⟩], last.session, unread, last.status⟩
  | session, group :: groups =>
      let turn := session.accept fuel group.source
      (playGroups fuel unread turn.session groups).behind (group.exchanges turn.events)

theorem playGroups_history (fuel unread : Nat) (session : Session) (groups : List Group) :
    (playGroups fuel unread session groups).session.history =
      session.history ++ groups.flatMap fun group => kept group.source := by
  induction groups generalizing session with
  | nil => exact (List.append_nil _).symm
  | cons group groups ih =>
      rw [playGroups, Transcript.behind, ih, accept_history, List.flatMap_cons, List.append_assoc]

theorem playGroups_prompts (fuel unread : Nat) (session : Session) {groups : List Group}
    (formed : ∀ group ∈ groups, group.Formed) :
    (playGroups fuel unread session groups).exchanges.map Exchange.prompt =
      groups.flatMap Group.prompts ++ [promptAfter 0] := by
  induction groups generalizing session with
  | nil => rfl
  | cons group groups ih =>
      rw [playGroups, Transcript.behind, List.map_append,
        (formed group List.mem_cons_self).prompts_exchanges,
        ih _ fun other member => formed other (List.mem_cons_of_mem _ member), List.flatMap_cons,
        List.append_assoc]

def staysOpen (fuel : Nat) : Session → List Input → Bool
  | session, [] => session.pending.isEmpty || (session.receive fuel .ended).status = .open
  | session, input :: inputs =>
      (session.pending.isEmpty && input = .ended) ||
        (session.receive fuel input).status = .open &&
          staysOpen fuel (session.receive fuel input).session inputs

/-- A session that has collected some lines is given a script, after which its input has ended for
good. The answers are those of some groups and then the end of the input. -/
structure Grouped (fuel : Nat) (session : Session) (lines : List Text) (script : List Input)
    (groups : List Group) (unread : List Input) : Prop where
  whole : lines.map .line ++ script ++ [.ended, .ended] =
    groups.flatMap Group.answers ++ .ended :: unread
  formed : ∀ group ∈ groups, group.Formed
  played : ((session.holding lines).play fuel script).behind (waits lines.length) =
    playGroups fuel (unread.length - 2) session groups

section Script

variable {fuel : Nat} {session : Session} {lines : List Text} {script inputs : List Input}
  {input : Input}
  {group : Group} {groups : List Group} {unread : List Input}

theorem play_cons (goesOn : (session.receive fuel input).status = .open) :
    session.play fuel (input :: inputs) =
      ((session.receive fuel input).session.play fuel inputs).behind
        [⟨session.prompt, (session.receive fuel input).events⟩] := by
  rw [play]
  exact if_pos goesOn

theorem receive_ended (complete : session.pending = []) :
    session.receive fuel .ended = session.wrote [say (text "\n")] .closed := by
  rw [receive, complete]
  rfl

/-- The last answer of a group. -/
theorem Grouped.cons (formed : group.Formed) (opened : Opened lines)
    (answers : group.answers = lines.map .line ++ [input])
    (taken : (session.holding lines).receive fuel input = session.accept fuel group.source)
    (goesOn : (session.accept fuel group.source).status = .open)
    (rest : Grouped fuel (session.accept fuel group.source).session [] inputs groups unread) :
    Grouped fuel session lines (input :: inputs) (group :: groups) unread := by
  have last : group.answers.length - 1 = lines.length := by simp [answers]
  refine ⟨?_, ?_, ?_⟩
  · have whole := rest.whole
    rw [List.map_nil, List.nil_append] at whole
    rw [List.flatMap_cons, answers, List.append_assoc _ _ (.ended :: unread), ← whole]
    simp
  · exact List.forall_mem_cons.mpr ⟨formed, rest.formed⟩
  · have played := rest.played
    rw [holding_nil (accept_pending _ _ _)] at played
    rw [playGroups, ← played, play_cons (by rw [taken]; exact goesOn), taken, holding_prompt opened,
      Group.exchanges, last]
    simp [Transcript.behind, waits]

theorem Grouped.collect {bytes : Text} (opened : Opened lines)
    (more : 0 < openDepth (Text.join (text "\n") (lines ++ [bytes])))
    (rest : Grouped fuel session (lines ++ [bytes]) inputs groups unread) :
    Grouped fuel session lines (.line bytes :: inputs) groups unread := by
  have taken : (session.holding lines).receive fuel (.line bytes) =
      (session.holding (lines ++ [bytes])).wrote [] .open := by
    rw [receive, holding_extended opened]
    exact if_neg (by omega)
  refine ⟨?_, rest.formed, ?_⟩
  · rw [← rest.whole]
    simp
  · have waited : waits (lines ++ [bytes]).length =
        waits lines.length ++ [⟨promptAfter lines.length, []⟩] := by
      rw [List.length_append, List.length_singleton]
      unfold waits
      rw [List.range_succ, List.map_append, List.map_singleton]
    rw [← rest.played, play_cons (by rw [taken]; rfl), taken, holding_prompt opened, waited]
    simp [Transcript.behind, wrote, lineStartAfter]

theorem staysOpen_cons (stays : session.staysOpen fuel (input :: inputs) = true)
    (more : session.pending ≠ [] ∨ input ≠ .ended) :
    (session.receive fuel input).status = .open ∧
      (session.receive fuel input).session.staysOpen fuel inputs = true := by
  rw [staysOpen] at stays
  rcases more with pending | other
  · simpa [pending] using stays
  · simpa [other] using stays

theorem Grouped.nil (complete : session.pending = []) :
    Grouped fuel session [] [] [] [.ended] := by
  refine ⟨rfl, List.forall_mem_nil _, ?_⟩
  rw [holding_nil complete, play, receive_ended complete, prompt_of_complete complete, playGroups]
  rfl

theorem Grouped.ended (complete : session.pending = []) :
    Grouped fuel session [] (.ended :: inputs) [] (inputs ++ [.ended, .ended]) := by
  refine ⟨rfl, List.forall_mem_nil _, ?_⟩
  have length : (inputs ++ [Input.ended, Input.ended]).length - 2 = inputs.length := by
    rw [List.length_append]
    rfl
  rw [holding_nil complete, play, receive_ended complete, prompt_of_complete complete, playGroups,
    length]
  rfl

theorem Grouped.cut (formed : group.Formed) (opened : Opened lines)
    (answers : group.answers = lines.map .line ++ [.ended])
    (taken : (session.holding lines).receive fuel .ended = session.accept fuel group.source)
    (goesOn : (session.accept fuel group.source).status = .open) :
    Grouped fuel session lines [] [group] [] := by
  have last : group.answers.length - 1 = lines.length := by simp [answers]
  refine ⟨?_, List.forall_mem_singleton.mpr formed, ?_⟩
  · simp [answers]
  · rw [play, taken, if_pos goesOn, receive_ended (accept_pending _ _ _), playGroups, playGroups,
      holding_prompt opened, prompt_of_complete (accept_pending _ _ _), Group.exchanges, last]
    simp [Transcript.behind]

end Script

theorem Group.Formed.of_complete {lines : List Text} {bytes : Text} (opened : Opened lines)
    (closed : openDepth (Text.join (text "\n") (lines ++ [bytes])) ≤ 0) :
    Group.Formed ⟨lines ++ [bytes], .complete⟩ := by
  refine ⟨?_, fun _ => ⟨by simp, closed⟩, nofun, nofun⟩
  intro first starts some proper
  rcases List.prefix_concat_iff.mp starts with same | shorter
  · exact absurd same proper
  · exact opened first shorter some

theorem Group.Formed.of_aborted {lines : List Text} (opened : Opened lines) :
    Group.Formed ⟨lines, .aborted⟩ :=
  ⟨fun first starts some _ => opened first starts some, nofun,
    fun _ some => opened lines (List.prefix_refl lines) some, nofun⟩

theorem Group.Formed.of_cut {lines : List Text} (opened : Opened lines) (some : lines ≠ []) :
    Group.Formed ⟨lines, .cut⟩ :=
  ⟨fun first starts some _ => opened first starts some, nofun, nofun,
    fun _ => ⟨some, opened lines (List.prefix_refl lines) some⟩⟩

-- The induction is on the script; the lines that are pending are carried along with an open bracket
-- after each of them.
theorem exists_grouped {fuel : Nat} {session : Session} {lines : List Text} {script : List Input}
    (complete : session.pending = []) (opened : Opened lines)
    (stays : (session.holding lines).staysOpen fuel script = true) :
    ∃ groups unread, Grouped fuel session lines script groups unread := by
  induction script generalizing session lines with
  | nil =>
      rw [staysOpen, holding_isEmpty opened] at stays
      cases lines with
      | nil => exact ⟨[], [.ended], .nil complete⟩
      | cons first rest =>
          have taken : (session.holding (first :: rest)).receive fuel .ended =
              session.accept fuel (Group.source ⟨first :: rest, .cut⟩) := by
            rw [receive, holding_isEmpty opened]
            rfl
          rw [taken] at stays
          exact ⟨_, _, .cut (.of_cut opened (List.cons_ne_nil _ _)) opened rfl taken
            (by simpa using stays)⟩
  | cons input inputs ih =>
      have last (group : Group) (formed : group.Formed)
          (answers : group.answers = lines.map .line ++ [input])
          (taken : (session.holding lines).receive fuel input = session.accept fuel group.source)
          (more : (session.holding lines).pending ≠ [] ∨ input ≠ .ended) :
          ∃ groups unread, Grouped fuel session lines (input :: inputs) groups unread := by
        obtain ⟨goesOn, staysThen⟩ := staysOpen_cons stays more
        rw [taken] at goesOn staysThen
        have complete := accept_pending session fuel group.source
        obtain ⟨groups, unread, rest⟩ := ih complete .nil (by rwa [holding_nil complete])
        exact ⟨_, _, .cons formed opened answers taken goesOn rest⟩
      cases input with
      | line bytes =>
          by_cases closed : openDepth (Text.join (text "\n") (lines ++ [bytes])) ≤ 0
          · refine last ⟨lines ++ [bytes], .complete⟩ (.of_complete opened closed) ?_ ?_
              (.inr nofun)
            · simp [Group.answers]
            · rw [receive, holding_extended opened]
              exact if_pos closed
          · have more := Int.not_le.mp closed
            have collected : (session.holding lines).receive fuel (.line bytes) =
                (session.holding (lines ++ [bytes])).wrote [] .open := by
              rw [receive, holding_extended opened]
              exact if_neg closed
            have staysThen := (staysOpen_cons stays (.inr nofun)).2
            rw [collected] at staysThen
            obtain ⟨groups, unread, rest⟩ := ih complete (opened.snoc more) staysThen
            exact ⟨_, _, .collect opened more rest⟩
      | aborted =>
          exact last ⟨lines, .aborted⟩ (.of_aborted opened) rfl (accept_nil session fuel).symm
            (.inr nofun)
      | ended =>
          cases lines with
          | nil => exact ⟨[], _, .ended complete⟩
          | cons first rest =>
              have some := List.cons_ne_nil first rest
              have pending : (session.holding (first :: rest)).pending ≠ [] :=
                fun none => some (opened.join_eq_nil.mp none)
              refine last ⟨first :: rest, .cut⟩ (.of_cut opened some) rfl ?_ (.inl pending)
              rw [receive, holding_isEmpty opened]
              rfl
      | failed =>
          cases (staysOpen_cons stays (.inr nofun)).1

/-- The answers to the prompts of a session are those of groups of lines, and the session does what
it does with the sources that the groups make. It keeps each of them that is not blank. -/
theorem play_grouped {fuel : Nat} {session : Session} {script : List Input}
    (complete : session.pending = []) (stays : session.staysOpen fuel script = true) :
    let played := session.play fuel script
    ∃ (groups : List Group) (unread : List Input),
      script ++ [.ended, .ended] = groups.flatMap Group.answers ++ .ended :: unread ∧
      (∀ group ∈ groups, group.Formed) ∧
      played = playGroups fuel (unread.length - 2) session groups ∧
      played.exchanges.map Exchange.prompt = groups.flatMap Group.prompts ++ [promptAfter 0] ∧
      played.session.history = session.history ++ groups.flatMap fun group =>
        kept group.source := by
  obtain ⟨groups, unread, grouped⟩ :=
    exists_grouped complete .nil (by rwa [holding_nil complete])
  have played := grouped.played
  rw [holding_nil complete] at played
  change session.play fuel script = playGroups fuel (unread.length - 2) session groups at played
  refine ⟨groups, unread, grouped.whole, grouped.formed, played, ?_, ?_⟩
  · rw [played]
    exact playGroups_prompts _ _ _ grouped.formed
  · rw [played]
    exact playGroups_history _ _ _ _

/-- A bracket in a text and one in a comment, lines that are given up, a blank line, and lines that
the end of the input cuts off. -/
def severalInputs : List Input :=
  [.line (text "if true \x7b // ("), .line (text ""), .line (text "printf(\")\"); \x7d"),
    .line (text "a = ["), .aborted, .line (text " "), .line (text "(1"), .line (text "+")]

theorem play_grouped_several :
    let session := new false 0 false
    session.pending = [] ∧ session.staysOpen 1 severalInputs = true ∧
      ∃ (groups : List Group) (unread : List Input),
        severalInputs ++ [.ended, .ended] = groups.flatMap Group.answers ++ .ended :: unread ∧
        (∀ group ∈ groups, group.Formed) ∧
        session.play 1 severalInputs = playGroups 1 (unread.length - 2) session groups ∧
        groups.flatMap Group.prompts ++ [promptAfter 0] =
          [0, 1, 2, 0, 1, 0, 0, 1, 2, 0].map promptAfter ∧
        groups.flatMap (fun group => kept group.source) =
          [text "if true \x7b // (  printf(\")\"); \x7d", text "(1 +"] := by
  intro session
  have stays : session.staysOpen 1 severalInputs = true := by decide +kernel
  obtain ⟨groups, unread, whole, formed, played, prompts, history⟩ := play_grouped rfl stays
  refine ⟨rfl, stays, groups, unread, whole, formed, played, prompts.symm.trans ?_, ?_⟩
  · decide +kernel
  · change _ = [] ++ _ at history
    rw [List.nil_append] at history
    rw [← history]
    decide +kernel

end Rover.Session
