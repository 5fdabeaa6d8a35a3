import Rover.Proofs.Session.Grouping
import Rover.Proofs.Session.Input

/-!
Lexing line by line. A line break ends every token but a string, so a text that is read to its end
with all its strings closed has the same tokens whatever comes on the lines below it. The depths of
such texts add up, which is why a session may lex all the lines that it has collected again with
each new one.
-/

namespace Rover

/-- A text that is read to its end, and in which every string is closed. -/
structure SelfContained (source : Text) : Prop where
  whole : (Lexer.new source).drain.1.getLast? = some (.finish (.after source.chars))
  closed : ∀ token ∈ (Lexer.new source).drain.1, ¬Unclosed token.kind token.text

namespace SelfContained

variable {first : Text}

theorem finishes (contained : SelfContained first) : Finishes first.chars .start := by
  have whole := contained.whole
  rw [Lexer.drain_new, ← Pos.start_past] at whole
  exact whole

theorem tokens_break (contained : SelfContained first) (second : Text) :
    tokens (first ++ text "\n" ++ second) =
      (tokens first).dropLast ++ (tokens second).map (.move (1 + first.chars.count '\n')) := by
  have closed := contained.closed
  rw [Lexer.drain_new] at closed
  have chars : (first ++ text "\n" ++ second).chars = first.chars ++ '\n' :: second.chars := by
    rw [List.append_assoc]
    exact Text.chars_break first second
  have place : Pos.start.past (first.chars ++ ['\n']) =
      Pos.start.move (1 + first.chars.count '\n') := by
    rw [Int.add_comm, ← Int.zero_add (_ + 1), ← Pos.past_break]
    rfl
  unfold tokens
  rw [chars, tokensFrom_break contained.finishes closed, place, tokensFrom_move]

end SelfContained

theorem openDepth_eq (source : Text) : openDepth source = depth (tokens source) := by
  unfold openDepth
  rw [foldl_depth, Int.zero_add]

theorem depth_move (lines : Int) (tokens : List Token) :
    depth (tokens.map (.move lines)) = depth tokens := by
  unfold depth
  rw [List.map_map]
  rfl

theorem depth_dropLast {tokens : List Token} {pos : Pos}
    (ends : tokens.getLast? = some (.finish pos)) : depth tokens.dropLast = depth tokens := by
  have split := List.dropLast_append_getLast? _ ends
  rw [← split, depth_append, List.dropLast_concat]
  exact (Int.add_zero _).symm

namespace SelfContained

theorem depth_break {first : Text} (contained : SelfContained first) (second : Text) :
    openDepth (first ++ text "\n" ++ second) = openDepth first + openDepth second := by
  have whole := contained.whole
  rw [Lexer.drain_new] at whole
  rw [openDepth_eq, contained.tokens_break, depth_append, depth_move, depth_dropLast whole,
    openDepth_eq,
    openDepth_eq]

end SelfContained

theorem depth_lines {lines : List Text} (contained : ∀ line ∈ lines, SelfContained line)
    (last : Text) :
    openDepth (Text.join (text "\n") (lines ++ [last])) =
      (lines.map openDepth).sum + openDepth last := by
  induction lines with
  | nil => exact (Int.zero_add _).symm
  | cons first rest ih =>
      obtain ⟨here, below⟩ := List.forall_mem_cons.mp contained
      obtain ⟨second, others, more⟩ : ∃ second others, rest ++ [last] = second :: others :=
        List.exists_cons_of_ne_nil
          (List.append_ne_nil_of_right_ne_nil rest (List.cons_ne_nil last []))
      rw [List.cons_append, more, Text.join, ← more, here.depth_break, ih below, List.map_cons,
        List.sum_cons, Int.add_assoc]

theorem join_eq_nil {lines : List Text} (blank : Text.join (text "\n") lines = []) :
    lines = [] ∨ lines = [[]] := by
  match lines, blank with
  | [], _ => exact .inl rfl
  | [line], blank => exact .inr (congrArg (fun line => [line]) blank)
  | first :: second :: rest, blank =>
      rw [Text.join, List.append_eq_nil_iff, List.append_eq_nil_iff] at blank
      exact absurd blank.1.2 (by decide)

namespace Session

theorem extended_holding (session : Session) (lines : List Text) (bytes : Text) :
    (lines = [] ∨ lines = [[]]) ∧ (session.holding lines).extended bytes = bytes ∨
      (session.holding lines).extended bytes = Text.join (text "\n") (lines ++ [bytes]) := by
  unfold extended holding
  dsimp only
  split
  · next blank => exact .inl ⟨join_eq_nil (List.isEmpty_iff.mp blank), rfl⟩
  · next more =>
      have some : lines ≠ [] := by
        rintro rfl
        exact more rfl
      exact .inr (join_snoc _ _ some).symm

theorem depth_extended (session : Session) {lines : List Text}
    (contained : ∀ line ∈ lines, SelfContained line) (bytes : Text) :
    openDepth ((session.holding lines).extended bytes) =
      (lines.map openDepth).sum + openDepth bytes := by
  rcases session.extended_holding lines bytes with ⟨blank, same⟩ | same
  · have flat : (lines.map openDepth).sum = 0 := by
      rcases blank with rfl | rfl
      · rfl
      · decide +kernel
    rw [same, flat, Int.zero_add]
  · rw [same, depth_lines contained]

end Session

/-- Below a text that leaves no token unfinished, another is lexed as it is alone, only lower down.
So the depths of the two add up, and a session that lexes all its lines again goes by the sum of
their depths. -/
theorem lexing_joined {first : Text} (contained : SelfContained first) (second : Text) :
    (Lexer.new (first ++ text "\n" ++ second)).drain.1 =
        (Lexer.new first).drain.1.dropLast ++
          (Lexer.new second).drain.1.map (.move (1 + first.chars.count '\n')) ∧
      openDepth (first ++ text "\n" ++ second) = openDepth first + openDepth second ∧
      ∀ (session : Session) (lines : List Text), (∀ line ∈ lines, SelfContained line) → ∀ fuel,
        let waiting := session.holding lines
        let source := waiting.extended second
        openDepth source = (lines.map openDepth).sum + openDepth second ∧
          waiting.receive fuel (.line second) =
            if (lines.map openDepth).sum + openDepth second ≤ 0 then waiting.accept fuel source
            else { waiting with pending := source }.wrote [] .open := by
  refine ⟨?_, contained.depth_break second, fun session lines each fuel => ?_⟩
  · rw [Lexer.drain_new, Lexer.drain_new, Lexer.drain_new, contained.tokens_break]
  · have sum := session.depth_extended each second
    refine ⟨sum, ?_⟩
    rw [Session.receive, sum]

/-- A bracket and a line break in a string with a NUL, half of an operator, a character that is not
complete, and a comment with a quote in it. -/
def openedText : Text :=
  text "f([\"(\n\x00\" & " ++ [0xE2, 0x82] ++ text " // \""

theorem lexing_joined_opened :
    let second := text "& ] \"a"
    let waiting := (Session.new false 0 false).holding [openedText, text "// ]"]
    SelfContained openedText ∧ SelfContained (text "// ]") ∧
      (Lexer.new (openedText ++ text "\n" ++ second)).drain.1 =
        (Lexer.new openedText).drain.1.dropLast ++ (Lexer.new second).drain.1.map (.move 2) ∧
      openDepth (openedText ++ text "\n" ++ second) = 2 + -1 ∧
      waiting.receive 0 (.line second) =
        { waiting with pending := waiting.extended second }.wrote [] .open := by
  intro second waiting
  have contained : SelfContained openedText := ⟨by decide +kernel, by decide +kernel⟩
  have comment : SelfContained (text "// ]") := ⟨by decide +kernel, by decide +kernel⟩
  obtain ⟨tokens, depths, goesOn⟩ := lexing_joined contained second
  obtain ⟨_, received⟩ := goesOn (.new false 0 false) [openedText, text "// ]"]
    (by simpa using ⟨contained, comment⟩) 0
  have lines : (1 + openedText.chars.count '\n' : Int) = 2 := by decide +kernel
  have sum : openDepth openedText + openDepth second = 2 + -1 := by decide +kernel
  have more : ¬([openedText, text "// ]"].map openDepth).sum + openDepth second ≤ 0 := by
    decide +kernel
  rw [lines] at tokens
  exact ⟨contained, comment, tokens, depths.trans sum, received.trans (if_neg more)⟩

end Rover
