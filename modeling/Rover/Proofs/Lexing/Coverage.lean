import Rover.Proofs.Grammar.Joined
import Rover.Proofs.Lexing.Partition

/-!
What becomes of each character of a source. As far as a source is read, a character is white space,
part of a comment or part of the lexeme of a token, and one that can be none of these has an illegal
token of its own. A source is read to its end, unless there is a NUL between tokens: that ends it.
-/

namespace Rover

theorem split_append {first second before after : List Char} {char : Char}
    (whole : first ++ second = before ++ char :: after) :
    (∃ others, first = before ++ char :: others ∧ after = others ++ second) ∨
      ∃ others, before = first ++ others ∧ second = others ++ char :: after := by
  rcases List.append_eq_append_iff.mp whole with ⟨others, start, later⟩ | ⟨others, start, later⟩
  · exact .inr ⟨others, start, later⟩
  · cases others with
    | nil => exact .inr ⟨[], by rw [start, List.append_nil, List.append_nil], later.symm⟩
    | cons head more =>
        obtain ⟨rfl, same⟩ := List.cons_eq_cons.mp later
        exact .inl ⟨more, start, same⟩

/-- A character is white space or inside a comment, given what comes before and after it in the same
trivia. -/
inductive Skipped (before : List Char) (char : Char) (after : List Char) : Prop
  | white (space : isSpace char = true)
  | comment (start body more : List Char) (inside : '\n' ∉ body)
      (whole : before ++ char :: after = start ++ '/' :: '/' :: body ++ more)
      (opened : start.length ≤ before.length)
      (goesOn : before.length < start.length + body.length + 2)

theorem Skipped.cons {before after : List Char} {char : Char} (skipped : Skipped before char after)
    (earlier : List Char) : Skipped (earlier ++ before) char after := by
  cases skipped with
  | white space => exact .white space
  | comment start body more inside whole opened goesOn =>
      refine .comment (earlier ++ start) body more inside ?_ ?_ ?_
      · simp only [List.append_assoc] at whole ⊢
        rw [whole]
      · simp only [List.length_append]
        omega
      · simp only [List.length_append]
        omega

theorem Trivia.skipped {next trivia : List Char} (skips : Trivia next trivia)
    {before after : List Char} {char : Char} (whole : trivia = before ++ char :: after) :
    Skipped before char after := by
  induction skips generalizing before with
  | none => simp at whole
  | space white _ ih =>
      cases before with
      | nil =>
          cases whole
          exact .white white
      | cons first others =>
          obtain ⟨_, rest⟩ := List.cons_eq_cons.mp whole
          exact (ih rest).cons [first]
  | @comment body rest inside _ _ ih =>
      rcases split_append whole with ⟨others, start, later⟩ | ⟨others, start, later⟩
      · have long := congrArg List.length start
        simp only [List.length_append, List.length_cons] at long
        refine .comment [] body rest inside ?_ (Nat.zero_le _) ?_
        · rw [← whole]
          rfl
        · simp only [List.length_nil]
          omega
      · rw [start]
        exact (ih later).cons _

theorem slice_of_split {slices : List Slice} {before after : List Char} {char : Char}
    (whole : slices.flatMap Slice.chars = before ++ char :: after) :
    ∃ earlier slice later first second, slices = earlier ++ slice :: later ∧
      before = earlier.flatMap Slice.chars ++ first ∧ slice.chars = first ++ char :: second := by
  induction slices generalizing before with
  | nil => simp at whole
  | cons slice rest ih =>
      rcases split_append whole with ⟨others, start, _⟩ | ⟨others, start, later⟩
      · exact ⟨[], slice, rest, before, others, rfl, rfl, start⟩
      · obtain ⟨earlier, found, more, first, second, rfl, rfl, inside⟩ := ih later
        refine ⟨slice :: earlier, found, more, first, second, rfl, ?_, inside⟩
        rw [start, List.flatMap_cons, List.append_assoc]

def readOf (slices : List Slice) (trivia : List Char) : List Char :=
  slices.flatMap Slice.chars ++ trivia

/-- What became of the character that comes after `before`. -/
inductive Accounted (slices : List Slice) (trivia before : List Char) (char : Char) : Prop
  -- it is in the trivia in front of a token
  | skipped {earlier later : List Slice} {slice : Slice} {first second : List Char}
      (cut : slices = earlier ++ slice :: later)
      (here : before = earlier.flatMap Slice.chars ++ first)
      (inside : slice.trivia = first ++ char :: second) (skipped : Skipped first char second)
  -- it is in the trivia in front of the end
  | last {first second : List Char} (here : before = slices.flatMap Slice.chars ++ first)
      (inside : trivia = first ++ char :: second) (skipped : Skipped first char second)
  -- it is part of a valid token
  | legal {earlier later : List Slice} {slice : Slice} {first second : List Char}
      (cut : slices = earlier ++ slice :: later)
      (here : before = earlier.flatMap Slice.chars ++ slice.trivia ++ first)
      (inside : slice.lexeme = first ++ char :: second) (legal : slice.token.kind ≠ .illegal)
  -- it is in a string that is not closed
  | unclosed {earlier later : List Slice} {slice : Slice} {string first second : List Char}
      (cut : slices = earlier ++ slice :: later)
      (here : before = earlier.flatMap Slice.chars ++ slice.trivia ++ first)
      (inside : slice.lexeme = first ++ char :: second) (opened : slice.lexeme = '"' :: string)
      (clean : '"' ∉ string)
      (token : slice.token = ⟨.illegal, text "unterminated string literal",
        Pos.after (earlier.flatMap Slice.chars ++ slice.trivia)⟩)
  -- it has an illegal token of its own
  | stray {earlier later : List Slice} {slice : Slice} (cut : slices = earlier ++ slice :: later)
      (token : slice.token =
        ⟨.illegal, text "unexpected character " ++ Text.quotedChar char, Pos.after before⟩)

theorem Denotes.illegal_cases {next chars : List Char} {message : Text}
    (denoted : Denotes next chars .illegal message) :
    (∃ char, chars = [char] ∧ message = text "unexpected character " ++ Text.quotedChar char) ∨
      ∃ inside, chars = '"' :: inside ∧ '"' ∉ inside ∧ next = [] ∧
        message = text "unterminated string literal" := by
  cases denoted with
  | word reserved _ => exact absurd reserved (by decide)
  | sign known _ => exact absurd known (by decide)
  | unclosed clean last => exact .inr ⟨_, rfl, clean, last, rfl⟩
  | stray => exact .inl ⟨_, rfl, rfl⟩

namespace Partition

variable {source trivia rest : List Char} {tokens : List Token} {slices : List Slice}

theorem accounted (cut : Partition [] source tokens slices trivia rest) {before after : List Char}
    {char : Char} (whole : readOf slices trivia = before ++ char :: after) :
    Accounted slices trivia before char := by
  rcases split_append whole with ⟨others, start, _⟩ | ⟨others, start, later⟩
  · obtain ⟨earlier, slice, later, first, second, rfl, rfl, inside⟩ := slice_of_split start
    have fits := cut.fits earlier slice later rfl
    rcases split_append inside with ⟨more, same, _⟩ | ⟨more, rfl, same⟩
    · exact .skipped rfl rfl same (fits.trivia.skipped same)
    · have here := (List.append_assoc (earlier.flatMap Slice.chars) slice.trivia more).symm
      by_cases legal : slice.token.kind = .illegal
      · have denotes := fits.denotes
        have parts : slice.token = ⟨slice.token.kind, slice.token.text, slice.token.pos⟩ := rfl
        rw [legal, fits.pos, List.nil_append] at parts
        rw [legal] at denotes
        rcases denotes.illegal_cases
          with ⟨own, alone, message⟩ | ⟨string, opened, clean, _, message⟩
        · rw [alone] at same
          obtain ⟨rfl, rfl⟩ : more = [] ∧ own = char := by
            cases more with
            | nil => exact ⟨rfl, (List.cons_eq_cons.mp same).1⟩
            | cons head others => simp at same
          rw [message] at parts
          rw [List.append_nil]
          exact .stray rfl parts
        · rw [message] at parts
          exact .unclosed rfl here same opened clean parts
      · exact .legal rfl here same legal
  · exact .last start later (cut.trivia.skipped later)

theorem getLast? (cut : Partition [] source tokens slices trivia rest) :
    tokens.getLast? = some (.finish (Pos.after (readOf slices trivia))) := by
  rw [cut.tokens, List.getLast?_concat, readOf, List.nil_append]

/-- Only a NUL keeps a source from being read to its end. -/
theorem whole (cut : Partition [] source tokens slices trivia rest) (clean : '\x00' ∉ source) :
    readOf slices trivia = source := by
  rcases cut.ends with rfl | ⟨more, rfl⟩
  · rw [cut.chars, List.append_nil]
    rfl
  · refine absurd ?_ clean
    rw [cut.chars]
    exact List.mem_append_right _ List.mem_cons_self

end Partition

/-- The source is read from its start up to where it ends or up to a NUL between tokens, the last
token stands just past what was read, and every character that was read is accounted for: if it is
not white space and in no comment, string or valid token, it has an illegal token of its own. So
where a program is accepted, all that was read is white space, comments and valid tokens. -/
theorem source_accounted (source : Text) :
    ∃ slices trivia rest, Partition [] source.chars (Lexer.new source).drain.1 slices trivia rest ∧
      (Lexer.new source).drain.1.getLast? = some (.finish (Pos.after (readOf slices trivia))) ∧
      ('\x00' ∉ source.chars → readOf slices trivia = source.chars) ∧
      (∀ before char after, readOf slices trivia = before ++ char :: after →
        Accounted slices trivia before char) ∧
      ∀ program, parse source = .ok program → ∀ slice ∈ slices, slice.token.kind ≠ .illegal := by
  rw [Lexer.drain_new]
  obtain ⟨slices, trivia, rest, cut⟩ := tokensFrom_partition [] source.chars
  have same : tokensFrom source.chars (Pos.after []) = tokens source := rfl
  rw [same] at cut
  refine ⟨slices, trivia, rest, cut, cut.getLast?, cut.whole, fun _ _ _ => cut.accounted, ?_⟩
  intro program parsed slice member
  refine (parse_regular parsed).legal slice.token ?_
  rw [cut.tokens]
  exact List.mem_append_left _ (List.mem_map_of_mem member)

/-- What comes after a NUL is not read: the `@` has no token, and the program is accepted. -/
theorem source_cut_at_nul :
    (Lexer.new (text "a;\x00@")).drain.1 =
        [⟨.identifier, text "a", ⟨1, 1⟩⟩, ⟨.semicolon, [], ⟨1, 2⟩⟩, .finish ⟨1, 3⟩] ∧
      Pos.after (text "a;\x00@").chars = ⟨1, 5⟩ ∧
      (parse (text "a;\x00@")).toBool = true := by
  decide +kernel

end Rover
