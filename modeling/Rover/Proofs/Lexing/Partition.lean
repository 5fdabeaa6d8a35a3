import Rover.Proofs.Cursor
import Rover.Proofs.Lexing

/-!
The tokens of a source cut it. Its characters are, in order, trivia and a lexeme for each token and
the trivia before the end; nothing is left out, and every token stands where its lexeme starts.
-/

namespace Rover

mutual

theorem skipTrivia_trivia : (source : List Char) →
    Trivia (skipTrivia source).2 (skipTrivia source).1
  | [] => .none
  | char :: rest => by
      rw [skipTrivia]
      split
      · next white => exact .space white (skipTrivia_trivia rest)
      · split
        · next slashes =>
            obtain ⟨rfl, starts⟩ := slashes
            obtain ⟨others, rfl⟩ := List.head?_eq_some_iff.mp starts
            obtain ⟨body, more, same, inside, ends, trivia⟩ := skipComment_comment others
            have slash : skipComment ('/' :: others) = (skipComment others).map ('/' :: ·) id := by
              rw [skipComment, if_neg (by decide)]
            rw [slash]
            change Trivia _ ('/' :: '/' :: (skipComment others).1)
            rw [same]
            exact .comment inside ends trivia
        · exact .none

/-- What is left of a comment goes up to a line break or to the end, and trivia follows. -/
theorem skipComment_comment : (source : List Char) →
    ∃ body rest, (skipComment source).1 = body ++ rest ∧ '\n' ∉ body ∧
      (rest = [] ∧ (skipComment source).2 = [] ∨ ∃ others, rest = '\n' :: others) ∧
      Trivia (skipComment source).2 rest
  | [] => ⟨[], [], rfl, List.not_mem_nil, .inl ⟨rfl, rfl⟩, .none⟩
  | char :: rest => by
      rw [skipComment]
      split
      · next ends =>
          subst ends
          exact ⟨[], _, rfl, List.not_mem_nil, .inr ⟨_, rfl⟩,
            .space (by decide) (skipTrivia_trivia rest)⟩
      · next inside =>
          obtain ⟨body, more, same, clean, ends, trivia⟩ := skipComment_comment rest
          exact ⟨char :: body, more, congrArg (char :: ·) same,
            List.not_mem_cons_of_ne_of_not_mem (Ne.symm inside) clean, ends, trivia⟩

end

mutual

theorem skipTrivia_stops : (source : List Char) →
    ∀ first rest, (skipTrivia source).2 = first :: rest →
      isSpace first = false ∧ ¬['/', '/'] <+: first :: rest
  | [], _, _, found => by simp [skipTrivia] at found
  | char :: others, first, rest, found => by
      rw [skipTrivia] at found
      split at found
      · exact skipTrivia_stops others first rest found
      · next visible =>
          split at found
          · exact skipComment_stops others first rest found
          · next noComment =>
              cases found
              refine ⟨Bool.eq_false_iff.mpr visible, ?_⟩
              rintro ⟨more, same⟩
              cases same
              exact noComment ⟨rfl, rfl⟩

theorem skipComment_stops : (source : List Char) →
    ∀ first rest, (skipComment source).2 = first :: rest →
      isSpace first = false ∧ ¬['/', '/'] <+: first :: rest
  | [], _, _, found => by simp [skipComment] at found
  | char :: others, first, rest, found => by
      rw [skipComment] at found
      split at found
      · exact skipTrivia_stops others first rest found
      · exact skipComment_stops others first rest found

end

namespace Pos

/-- The place after the given characters: lines and the characters of the last line are counted. -/
def after (chars : List Char) : Pos :=
  ⟨1 + chars.count '\n', 1 + (chars.reverse.takeWhile (· != '\n')).length⟩

theorem start_past (chars : List Char) : start.past chars = after chars := by
  -- the last character tells how the place changes, so the induction is on the characters backwards
  rw [← List.reverse_reverse chars]
  induction chars.reverse with
  | nil => rfl
  | cons char others ih =>
      rw [List.reverse_cons, past_append, ih, past_cons, past_nil, next, after, after,
        List.reverse_concat, List.takeWhile_cons, List.count_append]
      by_cases ends : char = '\n'
      · subst ends
        simp [Int.add_assoc]
      · simp [ends, Int.add_assoc]

theorem after_past (before chars : List Char) :
    (after before).past chars = after (before ++ chars) := by
  rw [← start_past, ← start_past, past_append]

def Before (first second : Pos) : Prop :=
  first.line < second.line ∨ first.line = second.line ∧ first.col < second.col

theorem Before.trans {first second third : Pos} (earlier : first.Before second)
    (later : second.Before third) : first.Before third := by
  unfold Before at *
  omega

theorem before_next (pos : Pos) (char : Char) : pos.Before (pos.next char) := by
  unfold next
  split
  · exact .inl (Int.lt_succ pos.line)
  · exact .inr ⟨rfl, Int.lt_succ pos.col⟩

theorem before_past (pos : Pos) {chars : List Char} (nonempty : chars ≠ []) :
    pos.Before (pos.past chars) := by
  induction chars generalizing pos with
  | nil => exact absurd rfl nonempty
  | cons char others ih =>
      rw [past_cons]
      cases others with
      | nil => exact before_next pos char
      | cons second rest =>
          exact (before_next pos char).trans (ih (pos.next char) (List.cons_ne_nil second rest))

end Pos

structure Slice where
  trivia : List Char
  lexeme : List Char
  token : Token

namespace Slice

def chars (slice : Slice) : List Char := slice.trivia ++ slice.lexeme

/-- A slice of a source, with what stands before and behind it. A lexeme is not the start of a
comment, it determines its token, and it is as long as possible. -/
structure Fits (slice : Slice) (before behind : List Char) : Prop where
  trivia : Trivia (slice.lexeme ++ behind) slice.trivia
  code : ¬['/', '/'] <+: slice.lexeme ++ behind
  denotes : Denotes behind slice.lexeme slice.token.kind slice.token.text
  unique : ∀ kind text, Denotes behind slice.lexeme kind text →
    kind = slice.token.kind ∧ text = slice.token.text
  longest : Longest slice.lexeme behind
  pos : slice.token.pos = Pos.after (before ++ slice.trivia)

end Slice

/-- What comes after the characters `before` is cut into slices, one for each token but the last,
and trivia. The `rest` is not read: a NUL ends a source. -/
structure Partition (before source : List Char) (tokens : List Token) (slices : List Slice)
    (trivia rest : List Char) : Prop where
  chars : source = slices.flatMap Slice.chars ++ trivia ++ rest
  tokens : tokens = slices.map Slice.token ++
    [.finish (Pos.after (before ++ slices.flatMap Slice.chars ++ trivia))]
  fits : ∀ earlier slice later, slices = earlier ++ slice :: later →
    slice.Fits (before ++ earlier.flatMap Slice.chars)
      (later.flatMap Slice.chars ++ trivia ++ rest)
  trivia : Trivia rest trivia
  ends : rest = [] ∨ ∃ more, rest = '\x00' :: more

namespace Partition

variable {before source trivia rest : List Char} {tokens : List Token} {slices : List Slice}

theorem finish (skipped : Trivia rest trivia) (ends : rest = [] ∨ ∃ more, rest = '\x00' :: more) :
    Partition before (trivia ++ rest) [.finish (Pos.after (before ++ trivia))] [] trivia rest where
  chars := rfl
  tokens := by rw [List.flatMap_nil, List.append_nil]; rfl
  fits := fun _ _ _ split => by simp at split
  trivia := skipped
  ends := ends

theorem cons {slice : Slice} (fits : slice.Fits before source)
    (cut : Partition (before ++ slice.chars) source tokens slices trivia rest) :
    Partition before (slice.chars ++ source) (slice.token :: tokens)
      (slice :: slices) trivia rest where
  chars := by
    rw [cut.chars, List.flatMap_cons, List.append_assoc, List.append_assoc, List.append_assoc]
  tokens := by
    rw [cut.tokens, List.map_cons, List.flatMap_cons, List.cons_append, List.append_assoc before]
  fits := by
    intro earlier other later split
    cases earlier with
    | nil =>
        cases split
        rw [← cut.chars, List.flatMap_nil, List.append_nil]
        exact fits
    | cons head more =>
        cases split
        have inside := cut.fits more other later rfl
        rw [List.append_assoc] at inside
        exact inside
  trivia := cut.trivia
  ends := cut.ends

end Partition

theorem scan_cases (before source : List Char) :
    (∃ trivia rest, source = trivia ++ rest ∧ Trivia rest trivia ∧
      (rest = [] ∨ ∃ more, rest = '\x00' :: more) ∧
      (scan source (Pos.after before)).token = .finish (Pos.after (before ++ trivia))) ∨
    ∃ slice : Slice, source = slice.chars ++ (scan source (Pos.after before)).rest ∧
      slice.Fits before (scan source (Pos.after before)).rest ∧
      (scan source (Pos.after before)).token = slice.token ∧
      (scan source (Pos.after before)).pos = Pos.after (before ++ slice.chars) := by
  have whole := skipTrivia_append source
  have skipped := skipTrivia_trivia source
  have stops := skipTrivia_stops source
  unfold scan
  rw [Pos.after_past]
  dsimp only
  split
  · next ended =>
      rw [ended] at whole skipped
      exact .inl ⟨_, [], whole.symm, skipped, .inl rfl, rfl⟩
  · next first rest found =>
      rw [found] at whole skipped
      split
      · next isNul =>
          subst isNul
          exact .inl ⟨_, _, whole.symm, skipped, .inr ⟨rest, rfl⟩, rfl⟩
      · next present =>
          obtain ⟨visible, code⟩ := stops first rest found
          obtain ⟨denotes, longest⟩ := Lexeme.read_fits visible present
          have same := Lexeme.read_append first rest
          rw [← same] at whole skipped code
          refine .inr ⟨⟨(skipTrivia source).1, (Lexeme.read first rest).chars, ⟨_, _, _⟩⟩, ?_,
            ⟨skipped, code, denotes, fun _ _ again => again.unique denotes, longest, rfl⟩, rfl, ?_⟩
          · rw [Slice.chars, List.append_assoc, whole]
          · rw [Pos.after_past, Slice.chars, List.append_assoc]

theorem tokensFrom_partition (before source : List Char) :
    ∃ slices trivia rest,
      Partition before source (tokensFrom source (Pos.after before)) slices trivia rest := by
  generalize place : Pos.after before = pos
  fun_induction tokensFrom source pos generalizing before with
  | case1 source pos step ends =>
      subst place
      rcases scan_cases before source with
        ⟨trivia, rest, rfl, skipped, stop, same⟩ | ⟨slice, _, fits, same, _⟩
      · exact ⟨[], trivia, rest, same ▸ .finish skipped stop⟩
      · exact absurd (same ▸ ends) fits.denotes.kind_ne_eof
  | case2 source pos step more ih =>
      subst place
      rcases scan_cases before source with
        ⟨trivia, rest, _, _, _, same⟩ | ⟨slice, chars, fits, same, moved⟩
      · exact absurd (congrArg Token.kind same) more
      · obtain ⟨slices, trivia, rest, cut⟩ := ih _ moved.symm
        have whole := Partition.cons fits cut
        rw [← chars, ← same] at whole
        exact ⟨slice :: slices, trivia, rest, whole⟩

namespace Partition

variable {before source trivia rest : List Char} {tokens : List Token} {slices : List Slice}

theorem token_behind (cut : Partition before source tokens slices trivia rest) :
    ∀ token ∈ tokens, ∃ chars, token.pos = Pos.after (before ++ chars) := by
  intro token member
  rw [cut.tokens, List.mem_append, List.mem_map, List.mem_singleton] at member
  rcases member with ⟨slice, inside, rfl⟩ | rfl
  · obtain ⟨earlier, later, split⟩ := List.append_of_mem inside
    refine ⟨earlier.flatMap Slice.chars ++ slice.trivia, ?_⟩
    rw [(cut.fits earlier slice later split).pos, List.append_assoc]
  · exact ⟨slices.flatMap Slice.chars ++ trivia, by rw [← List.append_assoc]; rfl⟩

end Partition

theorem Slice.Fits.before {slice : Slice} {before behind : List Char}
    (fits : slice.Fits before behind)
    (more : List Char) : slice.token.pos.Before (Pos.after (before ++ slice.chars ++ more)) := by
  have nonempty : slice.lexeme ++ more ≠ [] :=
    List.append_ne_nil_of_left_ne_nil fits.denotes.ne_nil more
  have later : Pos.after (before ++ slice.chars ++ more) =
      (Pos.after (before ++ slice.trivia)).past (slice.lexeme ++ more) := by
    rw [Pos.after_past, Slice.chars]
    simp only [List.append_assoc]
  rw [fits.pos, later]
  exact Pos.before_past _ nonempty

theorem tokensFrom_ordered (before source : List Char) :
    (tokensFrom source (Pos.after before)).Pairwise fun first second =>
      first.pos.Before second.pos := by
  generalize place : Pos.after before = pos
  fun_induction tokensFrom source pos generalizing before with
  | case1 => exact List.pairwise_singleton _ _
  | case2 source pos step more ih =>
      subst place
      rcases scan_cases before source with
        ⟨trivia, rest, _, _, _, same⟩ | ⟨slice, _, fits, same, moved⟩
      · exact absurd (congrArg Token.kind same) more
      · refine List.pairwise_cons.mpr ⟨fun token member => ?_, ih _ moved.symm⟩
        obtain ⟨slices, trivia, rest, cut⟩ := tokensFrom_partition (before ++ slice.chars) step.rest
        rw [← moved] at cut
        obtain ⟨chars, stands⟩ := cut.token_behind token member
        rw [show step.token = slice.token from same, stands]
        exact fits.before chars

/-- Lexing loses nothing: trivia, lexemes and the rest make up the source, every token is the one
that its lexeme denotes and stands where the lexeme starts, and the tokens go forward. -/
theorem lexer_cuts_source (source : Text) :
    ∃ slices trivia rest,
      Partition [] source.chars (Lexer.new source).drain.1 slices trivia rest ∧
      (Lexer.new source).drain.1.Pairwise fun first second => first.pos.Before second.pos := by
  rw [Lexer.drain_new]
  obtain ⟨slices, trivia, rest, cut⟩ := tokensFrom_partition [] source.chars
  exact ⟨slices, trivia, rest, cut, tokensFrom_ordered [] source.chars⟩

end Rover
