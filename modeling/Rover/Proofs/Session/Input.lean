import Rover.Proofs.Grammar.Joined
import Rover.Session

/-!
What a session makes of a source that parses. Its brackets are closed, so it is taken as complete; a
blank one has no statements; and it is no command, since a command would start with an illegal
token.
-/

namespace Rover

theorem foldl_depth (tokens : List Token) (start : Int) :
    tokens.foldl (fun depth token => depth + token.kind.depth) start = start + depth tokens := by
  induction tokens generalizing start with
  | nil => simp [depth]
  | cons token rest ih =>
      rw [List.foldl_cons, ih]
      simp only [depth, List.map_cons, List.sum_cons]
      omega

theorem openDepth_of_parsed {source : Text} {program : Program}
    (parsed : parse source = .ok program) : openDepth source = 0 := by
  unfold openDepth
  rw [foldl_depth, (parse_regular parsed).closed]
  rfl

theorem isSpace_shown (piece : Text.Piece) : isSpace piece.shown = piece.isSpace := by
  cases piece with
  | char letter => rfl
  | stray byte => exact (by decide : isSpace '\uFFFD' = false)

theorem dropWhile_chars (source : Text) :
    source.chars.dropWhile isSpace =
      (source.pieces.dropWhile Text.Piece.isSpace).map Text.Piece.shown := by
  unfold Text.chars
  induction source.pieces with
  | nil => rfl
  | cons piece rest ih =>
      rw [List.map_cons, List.dropWhile_cons, List.dropWhile_cons, isSpace_shown, ih]
      split <;> rfl

theorem isSpace_of_starts {pieces rest : List Text.Piece} {piece : Text.Piece}
    (starts : pieces.dropWhile Text.Piece.isSpace = piece :: rest) : piece.isSpace = false := by
  have stop := List.head?_dropWhile_not (p := Text.Piece.isSpace) (l := pieces)
  rw [starts] at stop
  simpa using stop

theorem skipTrivia_dropWhile (source : List Char) :
    (skipTrivia (source.dropWhile isSpace)).2 = (skipTrivia source).2 := by
  induction source with
  | nil => rfl
  | cons char rest ih =>
      rw [List.dropWhile_cons]
      split
      · next space =>
          rw [ih, skipTrivia, if_pos space]
          rfl
      · rfl

theorem scan_mem (source : List Char) (pos : Pos) :
    (scan source pos).token ∈ tokensFrom source pos := by
  rw [tokensFrom]
  split
  · exact List.mem_singleton_self _
  · exact List.mem_cons_self

theorem not_illegal_of_parsed {source : Text} {program : Program}
    (parsed : parse source = .ok program) {piece : Text.Piece} {rest : List Text.Piece}
    (starts : source.pieces.dropWhile Text.Piece.isSpace = piece :: rest)
    (other : piece.shown ≠ '/') (present : piece.shown ≠ '\x00') :
    (Lexeme.read piece.shown (rest.map Text.Piece.shown)).kind ≠ .illegal := by
  have found : (skipTrivia source.chars).2 = piece.shown :: rest.map Text.Piece.shown := by
    rw [← skipTrivia_dropWhile, dropWhile_chars, starts, List.map_cons, skipTrivia,
      if_neg (by rw [isSpace_shown, isSpace_of_starts starts]; exact Bool.false_ne_true),
      if_neg (fun both => other both.1)]
  have legal := (parse_regular parsed).legal _ (scan_mem source.chars .start)
  unfold scan at legal
  rw [found] at legal
  dsimp only at legal
  rw [if_neg present] at legal
  exact legal

theorem bytes_ne_nil (piece : Text.Piece) : piece.bytes ≠ [] := by
  cases piece with
  | char letter => exact String.utf8EncodeChar_ne_nil
  | stray byte => exact List.cons_ne_nil _ _

theorem trim_of_starts {source : Text} {piece : Text.Piece} {rest : List Text.Piece}
    (starts : source.pieces.dropWhile Text.Piece.isSpace = piece :: rest) :
    ∃ more, source.trim = piece.bytes ++ more := by
  obtain ⟨before, ended⟩ : ∃ before, (rest.reverse ++ [piece]).dropWhile Text.Piece.isSpace =
      before ++ [piece] := by
    rw [List.dropWhile_append]
    split
    · exact ⟨[], by rw [List.dropWhile_cons, isSpace_of_starts starts]; rfl⟩
    · exact ⟨_, rfl⟩
  refine ⟨before.reverse.flatMap Text.Piece.bytes, ?_⟩
  unfold Text.trim
  dsimp only
  rw [starts, List.reverse_cons, ended, List.reverse_append, List.reverse_singleton,
    List.singleton_append, List.flatMap_cons]

theorem statements_of_blank {source : Text} {program : Program}
    (parsed : parse source = .ok program)
    (blank : source.trim = []) : program.body = [] := by
  have spaces : source.pieces.dropWhile Text.Piece.isSpace = [] := by
    cases starts : source.pieces.dropWhile Text.Piece.isSpace with
    | nil => rfl
    | cons piece rest =>
        obtain ⟨more, trimmed⟩ := trim_of_starts starts
        rw [blank] at trimmed
        exact absurd (List.append_eq_nil_iff.mp trimmed.symm).1 (bytes_ne_nil piece)
  have found : (skipTrivia source.chars).2 = [] := by
    rw [← skipTrivia_dropWhile, dropWhile_chars, spaces]
    rfl
  have single : tokens source = [.finish (Pos.start.past (skipTrivia source.chars).1)] := by
    unfold tokens
    rw [tokensFrom, scan, found]
    rfl
  obtain ⟨given, final, same, _, goesOn, read⟩ := parse_read parsed
  have none : given = [] := by
    have lengths := congrArg List.length (single.symm.trans same)
    rw [List.length_append, List.length_singleton, List.length_singleton] at lengths
    exact List.length_eq_zero_iff.mp (by omega)
  subst none
  have outcome := program_outcome goesOn read
  rw [Parser.statements] at outcome
  exact (Option.some.inj (congrArg Prod.fst outcome)).symm

theorem eq_colon_of_bytes {letter : Char} {more others : Text}
    (starts : String.utf8EncodeChar letter ++ more = 58 :: others) : letter = ':' := by
  have first (number : Nat) (same : UInt8.ofNat number = 58) : number % 256 = 58 := by
    have numbers := congrArg UInt8.toNat same
    simpa using numbers
  -- a character of several bytes starts with one that is above those of all single ones
  unfold String.utf8EncodeChar at starts
  dsimp only at starts
  split at starts
  · have byte := first _ (List.cons.inj starts).1
    apply Char.ext
    apply UInt32.toNat_inj.mp
    change letter.val.toNat = 58
    omega
  · split at starts
    · have byte := first _ (List.cons.inj starts).1
      omega
    · split at starts
      · have byte := first _ (List.cons.inj starts).1
        omega
      · have byte := first _ (List.cons.inj starts).1
        omega

theorem not_command_of_parsed {source : Text} {program : Program}
    (parsed : parse source = .ok program) : source.trim.startsWith (text ":") = false := by
  apply Bool.eq_false_iff.mpr
  intro command
  obtain ⟨others, trimmed⟩ := List.isPrefixOf_iff_prefix.mp command
  cases starts : source.pieces.dropWhile Text.Piece.isSpace with
  | nil =>
      unfold Text.trim at trimmed
      rw [starts] at trimmed
      cases trimmed
  | cons piece rest =>
      obtain ⟨more, bytes⟩ := trim_of_starts starts
      cases piece with
      | char letter =>
          have colon : letter = ':' := eq_colon_of_bytes (bytes.symm.trans trimmed.symm)
          subst colon
          exact not_illegal_of_parsed parsed starts (by decide) (by decide) rfl
      | stray byte =>
          exact not_illegal_of_parsed parsed starts (show '\uFFFD' ≠ '/' by decide)
            (show '\uFFFD' ≠ '\x00' by decide) rfl

end Rover
