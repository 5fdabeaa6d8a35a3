import Rover.Proofs.Grammar.Carried
import Rover.Proofs.Lexing.Partition

/-!
Sources on lines of their own. A line break belongs to no character and to no token of the source
before it, so the characters and the tokens of the whole are those of the parts; the tokens of a
part stand as many lines lower down as there are line breaks before it.
-/

namespace Rover

namespace Text

theorem twoBytes?_break (first : UInt8) : twoBytes? first 10 = none := by
  simp [twoBytes?, isContinuation]

theorem threeBytes?_break (first second : UInt8) :
    threeBytes? first 10 second = none ∧ threeBytes? first second 10 = none := by
  simp [threeBytes?, isContinuation]

theorem fourBytes?_break (first second third : UInt8) :
    fourBytes? first 10 second third = none ∧ fourBytes? first second 10 third = none ∧
      fourBytes? first second third 10 = none := by
  simp [fourBytes?, isContinuation]

theorem firstPiece_break (first : UInt8) (rest more : Text) :
    firstPiece first (rest ++ 10 :: more) = firstPiece first rest := by
  unfold firstPiece
  split
  · rfl
  · match rest, more with
    | [], [] => simp [twoBytes?_break]
    | [], [_] => simp [twoBytes?_break, threeBytes?_break]
    | [], _ :: _ :: _ => simp [twoBytes?_break, threeBytes?_break, fourBytes?_break]
    | [second], [] =>
        simp only [List.singleton_append, threeBytes?_break]
        cases twoBytes? first second <;> rfl
    | [second], _ :: _ =>
        simp only [List.singleton_append, threeBytes?_break, fourBytes?_break]
        cases twoBytes? first second <;> rfl
    | [second, third], _ =>
        simp only [List.cons_append, List.nil_append, fourBytes?_break]
        cases twoBytes? first second <;> cases threeBytes? first second third <;> rfl
    | _ :: _ :: _ :: _, _ => rfl

theorem firstPiece_le (first : UInt8) (rest : Text) : (firstPiece first rest).2 ≤ rest.length := by
  unfold firstPiece
  split
  · exact Nat.zero_le _
  · split
    · split <;> simp
    · split <;> simp
    · split <;> simp
    · simp

theorem pieces_break (bytes more : Text) :
    pieces (bytes ++ 10 :: more) = pieces bytes ++ .char '\n' :: pieces more := by
  fun_induction pieces bytes with
  | case1 =>
      rw [List.nil_append, pieces]
      rfl
  | case2 first rest ih =>
      rw [List.cons_append, pieces, firstPiece_break,
        List.drop_append_of_le_length (firstPiece_le first rest), ih]
      rfl

theorem chars_break (bytes more : Text) :
    (bytes ++ 10 :: more).chars = bytes.chars ++ '\n' :: more.chars := by
  unfold chars
  rw [pieces_break, List.map_append]
  rfl

end Text

def afterTrivia (tail : List Char) (parts : List Char × List Char) : List Char × List Char :=
  if parts.2 = [] then (parts.1 ++ '\n' :: (skipTrivia tail).1, (skipTrivia tail).2)
  else (parts.1, parts.2 ++ '\n' :: tail)

theorem afterTrivia_map (tail : List Char) (parts : List Char × List Char) (char : Char) :
    afterTrivia tail (parts.map (char :: ·) id) =
      (afterTrivia tail parts).map (char :: ·) id := by
  unfold afterTrivia
  split
  · next ended =>
      rw [if_pos (show parts.2 = [] from ended)]
      rfl
  · next goesOn =>
      rw [if_neg (show parts.2 ≠ [] from goesOn)]
      rfl

theorem head?_break (rest tail : List Char) :
    (rest ++ '\n' :: tail).head? = some '/' ↔ rest.head? = some '/' := by
  cases rest with
  | nil => simp
  | cons char others => rfl

mutual

theorem skipTrivia_break (tail : List Char) : (source : List Char) →
    skipTrivia (source ++ '\n' :: tail) = afterTrivia tail (skipTrivia source)
  | [] => by
      have space : isSpace '\n' = true := by decide
      simp [skipTrivia, space, afterTrivia, Prod.map]
  | char :: rest => by
      have trivia := skipTrivia_break tail rest
      have comment := skipComment_break tail rest
      rw [List.cons_append, skipTrivia, skipTrivia, trivia, comment]
      simp only [head?_break]
      split
      · rw [afterTrivia_map]
      · split
        · rw [afterTrivia_map]
        · rfl

theorem skipComment_break (tail : List Char) : (source : List Char) →
    skipComment (source ++ '\n' :: tail) = afterTrivia tail (skipComment source)
  | [] => by
      simp [skipComment, afterTrivia, Prod.map]
  | char :: rest => by
      have trivia := skipTrivia_break tail rest
      have comment := skipComment_break tail rest
      rw [List.cons_append, skipComment, skipComment, trivia, comment]
      split
      · rw [afterTrivia_map]
      · rw [afterTrivia_map]

end

/-- All lexemes end at a line break but strings, and those are illegal where they do not end at
all. -/
def Unclosed (kind : Kind) (shown : Text) : Prop :=
  kind = .illegal ∧ shown = text "unterminated string literal"
  deriving Decidable

theorem takeWhile_break {holds : Char → Bool} (stops : holds '\n' = false) (rest tail : List Char) :
    (rest ++ '\n' :: tail).takeWhile holds = rest.takeWhile holds := by
  induction rest with
  | nil => simp [stops]
  | cons char others ih => simp [List.takeWhile_cons, ih]

theorem dropWhile_break {holds : Char → Bool} (stops : holds '\n' = false) (rest tail : List Char) :
    (rest ++ '\n' :: tail).dropWhile holds = rest.dropWhile holds ++ '\n' :: tail := by
  induction rest with
  | nil => simp [stops]
  | cons char others ih =>
      simp only [List.cons_append, List.dropWhile_cons, ih]
      split <;> rfl

namespace Lexeme

def before (tail : List Char) (lexeme : Lexeme) : Lexeme :=
  { lexeme with rest := lexeme.rest ++ '\n' :: tail }

variable (first : Char) (rest tail : List Char)

theorem word_break : word first (rest ++ '\n' :: tail) = (word first rest).before tail := by
  have stops : isWordChar '\n' = false := by decide
  unfold word
  rw [takeWhile_break stops, dropWhile_break stops]
  dsimp only
  split <;> rfl

theorem number_break : number first (rest ++ '\n' :: tail) = (number first rest).before tail := by
  have stops : '\n'.isDigit = false := by decide
  unfold number
  rw [takeWhile_break stops, dropWhile_break stops]
  dsimp only
  cases rest.dropWhile Char.isDigit with
  | nil => rfl
  | cons char after =>
      rw [List.cons_append]
      by_cases isDot : char = '.'
      · subst isDot
        simp [before, takeWhile_break stops, dropWhile_break stops]
      · simp [isDot, before]

theorem quote_break (closed : ¬Unclosed (quote rest).kind (quote rest).text) :
    quote (rest ++ '\n' :: tail) = (quote rest).before tail := by
  unfold quote at closed ⊢
  rw [List.takeWhile_append, List.dropWhile_append]
  dsimp only at closed ⊢
  cases found : rest.dropWhile (· != '"') with
  | nil =>
      rw [found] at closed
      exact absurd ⟨rfl, rfl⟩ closed
  | cons char after =>
      -- the string is closed within the first part, so it does not reach the line break
      have shorter : (rest.takeWhile (· != '"')).length ≠ rest.length := by
        have whole := congrArg List.length
          (List.takeWhile_append_dropWhile (p := (· != '"')) (l := rest))
        rw [found, List.length_append, List.length_cons] at whole
        omega
      rw [if_neg shorter]
      rfl

theorem operator_break :
    operator first (rest ++ '\n' :: tail) = (operator first rest).before tail := by
  -- where a second sign did not follow, it does not follow at the line break either
  have single {second : Char} (other : second ≠ '\n')
      (alone : ∀ after, rest = second :: after → False) (after : List Char) :
      rest ++ '\n' :: tail = second :: after → False := by
    cases rest with
    | nil =>
        rintro ⟨⟩
        exact other rfl
    | cons char others =>
        rintro ⟨⟩
        exact alone others rfl
  fun_cases operator first rest
  case case14 alone | case16 alone | case18 alone | case20 alone =>
    rw [operator]
    · rfl
    · exact single (by decide) alone
  case case23 =>
    have apart {head second : Char} (alone : ∀ after, first = head → rest = second :: after → False)
        (other : second ≠ '\n') (after : List Char) (starts : first = head) :
        rest ++ '\n' :: tail = second :: after → False :=
      single other (fun others => alone others starts) after
    rw [operator]
    · rfl
    case x_14 | x_16 | x_18 | x_20 | x_22 | x_23 => exact apart (by assumption) (by decide)
    all_goals assumption
  all_goals rfl

theorem read_break (closed : ¬Unclosed (read first rest).kind (read first rest).text) :
    read first (rest ++ '\n' :: tail) = (read first rest).before tail := by
  unfold read at closed ⊢
  split
  · exact word_break first rest tail
  · split
    · exact number_break first rest tail
    · split
      · next isQuote =>
          rw [if_neg (by assumption), if_neg (by assumption), if_pos isQuote] at closed
          exact quote_break rest tail closed
      · exact operator_break first rest tail

theorem read_ne_eof : (read first rest).kind ≠ .eof := by
  unfold read
  split
  · unfold word
    dsimp only
    split
    · next kind found =>
        have member := List.mem_of_find?_eq_some found
        intro same
        rw [show kind = .eof from same] at member
        exact absurd member (by decide)
    · exact nofun
  · split
    · unfold number
      dsimp only
      split <;> exact nofun
    · split
      · unfold quote
        dsimp only
        split <;> exact nofun
      · unfold operator
        split <;> exact nofun

end Lexeme

section Tokens

variable {source : List Char} {pos : Pos}

theorem skipTrivia_whole (blank : (skipTrivia source).2 = []) : (skipTrivia source).1 = source := by
  have whole := skipTrivia_append source
  rw [blank, List.append_nil] at whole
  exact whole

theorem mem_of_skipTrivia {first : Char} {rest : List Char}
    (found : (skipTrivia source).2 = first :: rest) : first ∈ source := by
  rw [← skipTrivia_append source, found]
  exact List.mem_append_right _ List.mem_cons_self

theorem scan_read (source : List Char) (pos : Pos) :
    ∃ read, source = read ++ (scan source pos).rest ∧ (scan source pos).pos = pos.past read := by
  have whole := skipTrivia_append source
  unfold scan
  dsimp only
  split
  · next blank => exact ⟨source, by simp, by rw [skipTrivia_whole blank]⟩
  · next first rest found =>
      rw [found] at whole
      split
      · refine ⟨(skipTrivia source).1 ++ [first], ?_, ?_⟩
        · simpa using whole.symm
        · simp
      · refine ⟨(skipTrivia source).1 ++ (Lexeme.read first rest).chars, ?_, ?_⟩
        · rw [List.append_assoc, Lexeme.read_append]
          exact whole.symm
        · simp

/-- The tokens end just past the last character: no NUL between them cuts the source off. -/
def Finishes (source : List Char) (pos : Pos) : Prop :=
  (tokensFrom source pos).getLast? = some (.finish (pos.past source))

theorem tokensFrom_ne_nil (source : List Char) (pos : Pos) : tokensFrom source pos ≠ [] := by
  obtain ⟨given, final, same, _⟩ := tokensFrom_ended source pos
  rw [same]
  exact List.append_ne_nil_of_right_ne_nil _ (List.cons_ne_nil _ _)

theorem tokensFrom_getLast? (more : (scan source pos).token.kind ≠ .eof) :
    (tokensFrom source pos).getLast? =
      (tokensFrom (scan source pos).rest (scan source pos).pos).getLast? := by
  obtain ⟨token, others, same⟩ := List.exists_cons_of_ne_nil
    (tokensFrom_ne_nil (scan source pos).rest (scan source pos).pos)
  rw [tokensFrom, if_neg more, same, List.getLast?_cons_cons]

theorem past_rest (source : List Char) (pos : Pos) :
    (scan source pos).pos.past (scan source pos).rest = pos.past source := by
  obtain ⟨read, same, place⟩ := scan_read source pos
  rw [place, ← Pos.past_append, ← same]

theorem finishes_rest (more : (scan source pos).token.kind ≠ .eof) :
    Finishes source pos ↔ Finishes (scan source pos).rest (scan source pos).pos := by
  unfold Finishes
  rw [tokensFrom_getLast? more, past_rest]

theorem Finishes.blank (finishes : Finishes source pos)
    (ends : (scan source pos).token.kind = .eof) : (skipTrivia source).2 = [] := by
  unfold Finishes at finishes
  rw [tokensFrom, if_pos ends, List.getLast?_singleton, Option.some.injEq] at finishes
  cases found : (skipTrivia source).2 with
  | nil => rfl
  | cons first rest =>
      have place : pos.past (skipTrivia source).1 = pos.past source := by
        have token : (scan source pos).token.pos = pos.past (skipTrivia source).1 := by
          unfold scan
          rw [found]
          dsimp only
          split <;> rfl
        rw [← token, finishes]
        rfl
      have later := Pos.before_past (pos.past (skipTrivia source).1) (List.cons_ne_nil first rest)
      rw [← Pos.past_append, ← found, skipTrivia_append, place] at later
      exact absurd later (by unfold Pos.Before; omega)

theorem finishes_of_not_mem (whole : '\x00' ∉ source) : Finishes source pos := by
  fun_induction tokensFrom source pos with
  | case1 source pos step ends =>
      unfold Finishes
      rw [tokensFrom, if_pos ends, List.getLast?_singleton]
      unfold step scan at ends
      unfold scan
      cases found : (skipTrivia source).2 with
      | nil => rw [skipTrivia_whole found]
      | cons first rest =>
          rw [found] at ends
          dsimp only at ends
          split at ends
          · next isNul => exact absurd (isNul ▸ mem_of_skipTrivia found) whole
          · exact absurd ends (Lexeme.read_ne_eof first rest)
  | case2 source pos step more ih =>
      refine (finishes_rest more).mpr (ih fun member => whole ?_)
      obtain ⟨read, same, _⟩ := scan_read source pos
      rw [same]
      exact List.mem_append_right _ member

/-- A source that has come to its end goes on after the line break. -/
theorem scan_break_eof (finishes : Finishes source pos) (ends : (scan source pos).token.kind = .eof)
    (tail : List Char) :
    scan (source ++ '\n' :: tail) pos = scan tail (pos.past (source ++ ['\n'])) := by
  have blank := finishes.blank ends
  unfold scan
  rw [skipTrivia_break, afterTrivia, if_pos blank, skipTrivia_whole blank]
  simp

theorem scan_break (more : (scan source pos).token.kind ≠ .eof)
    (closed : ¬Unclosed (scan source pos).token.kind (scan source pos).token.text)
    (tail : List Char) :
    scan (source ++ '\n' :: tail) pos =
      { scan source pos with rest := (scan source pos).rest ++ '\n' :: tail } := by
  unfold scan at more closed ⊢
  rw [skipTrivia_break, afterTrivia]
  dsimp only at more closed ⊢
  cases found : (skipTrivia source).2 with
  | nil =>
      rw [found] at more
      exact absurd rfl more
  | cons first rest =>
      rw [found] at more closed
      have present : first ≠ '\x00' := by
        rintro rfl
        exact more rfl
      simp only [present, if_false] at closed
      simp only [List.cons_ne_nil, if_false, List.cons_append, present,
        Lexeme.read_break first rest tail closed]
      rfl

-- The end of the first part gives way to the tokens of the second.
theorem tokensFrom_break (finishes : Finishes source pos)
    (closed : ∀ token ∈ tokensFrom source pos, ¬Unclosed token.kind token.text) (tail : List Char) :
    tokensFrom (source ++ '\n' :: tail) pos =
      (tokensFrom source pos).dropLast ++ tokensFrom tail (pos.past (source ++ ['\n'])) := by
  fun_induction tokensFrom source pos with
  | case1 source pos step ends =>
      rw [tokensFrom, scan_break_eof finishes ends, ← tokensFrom]
      rfl
  | case2 source pos step more ih =>
      obtain ⟨closedHere, closedLater⟩ := List.forall_mem_cons.mp closed
      have onward : step.pos.past (step.rest ++ ['\n']) = pos.past (source ++ ['\n']) := by
        rw [Pos.past_append, past_rest, ← Pos.past_append]
      rw [tokensFrom, scan_break more closedHere]
      dsimp only
      rw [if_neg more, ih ((finishes_rest more).mp finishes) closedLater, onward,
        List.dropLast_cons_of_ne_nil (tokensFrom_ne_nil _ _), List.cons_append]

end Tokens

section Places

variable (lines : Int)

theorem Pos.next_move (pos : Pos) (char : Char) :
    (pos.move lines).next char = (pos.next char).move lines := by
  unfold next move
  split
  · simp only [Pos.mk.injEq, and_true]
    omega
  · rfl

theorem Pos.past_move (pos : Pos) (chars : List Char) :
    (pos.move lines).past chars = (pos.past chars).move lines := by
  induction chars generalizing pos with
  | nil => rfl
  | cons char rest ih => rw [past_cons, next_move, ih, past_cons]

theorem scan_move (source : List Char) (pos : Pos) :
    scan source (pos.move lines) =
      ⟨(scan source pos).token.move lines, (scan source pos).rest,
        (scan source pos).pos.move lines⟩ := by
  unfold scan
  rw [Pos.past_move]
  dsimp only
  split
  · rfl
  · split
    · rw [Pos.next_move]
      rfl
    · rw [Pos.past_move]
      rfl

theorem tokensFrom_move (source : List Char) (pos : Pos) :
    tokensFrom source (pos.move lines) = (tokensFrom source pos).map (Token.move lines) := by
  fun_induction tokensFrom source pos with
  | case1 source pos step ends =>
      rw [tokensFrom, scan_move]
      exact if_pos ends
  | case2 source pos step more ih =>
      rw [tokensFrom, scan_move]
      refine (if_neg more).trans ?_
      rw [List.map_cons, ← ih]

theorem Pos.line_past (pos : Pos) (chars : List Char) :
    (pos.past chars).line = pos.line + chars.count '\n' := by
  induction chars generalizing pos with
  | nil => simp
  | cons char rest ih =>
      rw [past_cons, ih, List.count_cons, next]
      split
      · next isBreak =>
          subst isBreak
          simp only [beq_self_eq_true, if_true]
          omega
      · next other => simp [other]

/-- After a line break the place is at the start of a line. -/
theorem Pos.past_break (chars : List Char) :
    (Pos.start.move lines).past (chars ++ ['\n']) =
      Pos.start.move (lines + (chars.count '\n' + 1)) := by
  have line := (Pos.start.move lines).line_past chars
  rw [past_append, past_cons, past_nil, next, if_pos rfl, line]
  simp only [move, start, Pos.mk.injEq, and_true]
  omega

end Places

end Rover
