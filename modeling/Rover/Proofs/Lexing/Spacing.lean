import Rover.Proofs.Grammar.Layout

/-!
Lexing undoes printing. Tokens that are spelled out are read back, whatever white space and comments
are between them: white space ends every lexeme and, but for strings, is part of none.
-/

namespace Rover

/-- The kinds of tokens in a source, with the texts that they can have. -/
inductive Lexable : Kind → Text → Prop
  | word {kind : Kind} (reserved : kind ∈ Kind.words) : Lexable kind []
  | sign {kind : Kind} (known : kind ∈ Kind.signs) : Lexable kind []
  | identifier {first : Char} {more : List Char} (starts : first.isAlpha = true)
      (goesOn : ∀ char ∈ more, isWordChar char = true)
      (free : ∀ kind ∈ Kind.words, kind.name ≠ Text.ofChars (first :: more)) :
      Lexable .identifier (Text.ofChars (first :: more))
  | int {digits : List Char} (nonempty : digits ≠ []) (all : ∀ char ∈ digits, char.isDigit = true) :
      Lexable .int (Text.ofChars digits)
  | float {whole fraction : List Char} (nonempty : whole ≠ [])
      (all : ∀ char ∈ whole ++ fraction, char.isDigit = true) :
      Lexable .float (Text.ofChars (whole ++ '.' :: fraction))
  | string {inside : List Char} (clean : '"' ∉ inside) : Lexable .string (Text.ofChars inside)

def spelling (kind : Kind) (shown : Text) : Text :=
  match kind with
  | .identifier | .int | .float => shown
  | .string => text "\"" ++ shown ++ text "\""
  | kind => kind.name

/-- White space and comments, each comment up to a line break. -/
inductive Blank : List Char → Prop
  | none : Blank []
  | space {char : Char} {rest : List Char} (white : isSpace char = true) (more : Blank rest) :
      Blank (char :: rest)
  | comment {body rest : List Char} (inside : '\n' ∉ body) (more : Blank rest) :
      Blank ('/' :: '/' :: body ++ '\n' :: rest)

structure Separator (chars : List Char) : Prop where
  blank : Blank chars
  starts : ∃ first rest, chars = first :: rest ∧ isSpace first = true

def printed (gap : List Char) (items : List ((Kind × Text) × List Char)) : Text :=
  Text.ofChars gap ++ items.flatMap fun item => spelling item.1.1 item.1.2 ++ Text.ofChars item.2

theorem names_chars : ∀ kind ∈ Kind.words ++ Kind.signs,
    spelling kind [] = kind.name ∧ Text.ofChars kind.name.chars = kind.name := by
  decide +kernel

theorem Lexable.denotes {kind : Kind} {shown : Text} (lexable : Lexable kind shown) :
    ∃ chars, spelling kind shown = Text.ofChars chars ∧
      ∀ next, Denotes next chars kind shown := by
  cases lexable with
  | word reserved =>
      obtain ⟨spelled, named⟩ := names_chars kind (List.mem_append_left _ reserved)
      exact ⟨kind.name.chars, spelled.trans named.symm, fun _ => .word reserved named⟩
  | sign known =>
      obtain ⟨spelled, named⟩ := names_chars kind (List.mem_append_right _ known)
      exact ⟨kind.name.chars, spelled.trans named.symm, fun _ => .sign known named⟩
  | identifier starts goesOn free => exact ⟨_, rfl, fun _ => .identifier starts goesOn free⟩
  | int nonempty all => exact ⟨_, rfl, fun _ => .int nonempty all⟩
  | float nonempty all => exact ⟨_, rfl, fun _ => .float nonempty all⟩
  | @string inside clean =>
      refine ⟨'"' :: inside ++ ['"'], ?_, fun _ => .string clean⟩
      rw [Text.ofChars_append, Text.ofChars_cons]
      rfl

theorem Lexable.legal {kind : Kind} {shown : Text} (lexable : Lexable kind shown) :
    kind ≠ .illegal := by
  rintro rfl
  cases lexable <;> contradiction

theorem isWordChar_of_isSpace {char : Char} (white : isSpace char = true) :
    isWordChar char = false := by
  simp only [isSpace, Bool.or_eq_true, Bool.and_eq_true, decide_eq_true_eq, beq_iff_eq] at white
  have noLetter : char.isAlpha = false := by
    rw [← Bool.not_eq_true, isAlpha_iff]
    omega
  have noDigit : char.isDigit = false := by
    rw [← Bool.not_eq_true, Char.isDigit_iff_toNat]
    change ¬(48 ≤ char.toNat ∧ char.toNat ≤ 57)
    omega
  have noLine : char ≠ '_' := by
    rintro rfl
    exact absurd white (by decide)
  simp [isWordChar, noLetter, noDigit, noLine]

theorem singles_visible : ∀ char ∈ singles, isSpace char = false ∧ char ≠ '\x00' := by
  have each : singles.all (fun char => !isSpace char && char != '\x00') = true := by decide
  simpa using each

theorem doubles_visible : ∀ pair ∈ doubles,
    isSpace pair.1 = false ∧ pair.1 ≠ '\x00' ∧ isSpace pair.2 = false := by
  have each : doubles.all (fun pair =>
      !isSpace pair.1 && (pair.1 != '\x00' && !isSpace pair.2)) = true := by decide
  exact fun pair member => by simpa using List.all_eq_true.mp each pair member

namespace Shape

variable {first space : Char} {more : List Char}

theorem visible (shape : Shape (first :: more)) : isSpace first = false ∧ first ≠ '\x00' := by
  have ofWord (inWord : isWordChar first = true) : isSpace first = false ∧ first ≠ '\x00' := by
    refine ⟨Bool.eq_false_iff.mpr fun white => ?_, ?_⟩
    · rw [isWordChar_of_isSpace white] at inWord
      cases inWord
    · rintro rfl
      exact absurd inWord (by decide)
  cases shape with
  | word _ all => exact ofWord (all first List.mem_cons_self)
  | number starts _ _ =>
      have digit := starts first rfl
      exact ofWord (by simp [isWordChar, digit])
  | string starts _ _ =>
      cases starts
      decide
  | single char known same =>
      cases same
      exact singles_visible _ known
  | double pair known same =>
      cases same
      exact ⟨(doubles_visible _ known).1, (doubles_visible _ known).2.1⟩

theorem not_append (shape : Shape (first :: more)) (white : isSpace space = true)
    (rest : List Char) : ¬Shape (first :: more ++ space :: rest) := by
  have noWord := isWordChar_of_isSpace white
  intro longer
  cases longer with
  | word _ all =>
      rw [all space (by simp)] at noWord
      cases noWord
  | number _ all _ =>
      rcases all space (by simp) with digit | rfl
      · simp [isWordChar, digit] at noWord
      · exact absurd white (by decide)
  | string starts quotes ends =>
      obtain ⟨twice, _⟩ := shape.of_quote starts
      rw [List.getLast?_append, List.getLast?_eq_some_getLast (List.cons_ne_nil space rest),
        Option.some_or, ← List.getLast?_eq_some_getLast] at ends
      have third := List.count_pos_iff.mpr (List.mem_of_getLast? ends)
      rw [List.count_append, twice] at quotes
      omega
  | single char _ same => simp at same
  | double pair known same =>
      obtain ⟨rfl, rfl, rfl⟩ : more = [] ∧ pair.2 = space ∧ rest = [] := by
        cases more <;> simp_all
      rw [(doubles_visible _ known).2.2] at white
      cases white

end Shape

theorem Shape.not_illegal {first space : Char} {more rest next : List Char} {text : Text}
    (shape : Shape (first :: more)) :
    ¬Denotes next (first :: more ++ space :: rest) .illegal text := by
  intro denoted
  generalize whole : first :: more ++ space :: rest = chars at denoted
  cases denoted with
  | word reserved _ => exact absurd reserved (by decide)
  | sign known _ => exact absurd known (by decide)
  | stray => simp at whole
  | unclosed clean _ =>
      cases whole
      have twice := (shape.of_quote rfl).1
      rw [List.count_cons_self] at twice
      have again : '"' ∈ more := List.count_pos_iff.mp (by omega)
      exact clean (List.mem_append_left _ again)

/-- A lexeme is read up to the white space behind it. -/
theorem Lexable.read {kind : Kind} {shown : Text} (lexable : Lexable kind shown)
    {first space : Char} {more : List Char}
    (denoted : ∀ next, Denotes next (first :: more) kind shown) (white : isSpace space = true)
    (rest : List Char) :
    Lexeme.read first (more ++ space :: rest) = ⟨kind, shown, first :: more, space :: rest⟩ := by
  have shape := (denoted []).shape lexable.legal
  obtain ⟨visible, present⟩ := shape.visible
  obtain ⟨denotes, longest⟩ : (Lexeme.read first (more ++ space :: rest)).Fits :=
    Lexeme.read_fits visible present
  have whole := Lexeme.read_append first (more ++ space :: rest)
  generalize Lexeme.read first (more ++ space :: rest) = lexeme at denotes longest whole ⊢
  obtain ⟨kindRead, textRead, chars, others⟩ := lexeme
  dsimp only at denotes longest whole
  rw [← List.cons_append] at whole
  rcases List.append_eq_append_iff.mp whole with ⟨extra, same, rfl⟩ | ⟨extra, rfl, same⟩
  · -- the lexeme read is no shorter
    cases extra with
    | cons char extra =>
        exact absurd (longest (char :: extra) _ (List.cons_ne_nil _ _) rfl kind shown
          (same ▸ denoted _)) lexable.legal
    | nil =>
        rw [List.append_nil] at same
        subst same
        obtain ⟨rfl, rfl⟩ := (denoted []).unique denotes
        rfl
  · -- and no longer
    cases extra with
    | nil =>
        rw [List.append_nil] at denotes ⊢
        obtain ⟨rfl, rfl⟩ := (denoted []).unique denotes
        rw [same]
        rfl
    | cons char extra =>
        cases same
        by_cases isIllegal : kindRead = .illegal
        · subst isIllegal
          exact absurd denotes shape.not_illegal
        · exact absurd (denotes.shape isIllegal) (shape.not_append white extra)

theorem skipComment_line {body : List Char} (inside : '\n' ∉ body) (rest : List Char) :
    skipComment (body ++ '\n' :: rest) =
      (body ++ '\n' :: (skipTrivia rest).1, (skipTrivia rest).2) := by
  induction body with
  | nil =>
      rw [List.nil_append, skipComment, if_pos rfl]
      rfl
  | cons char body ih =>
      obtain ⟨other, inBody⟩ := List.ne_and_not_mem_of_not_mem_cons inside
      rw [List.cons_append, skipComment, if_neg (Ne.symm other), ih inBody]
      rfl

theorem Blank.skipped {gap : List Char} (blank : Blank gap) (rest : List Char) :
    skipTrivia (gap ++ rest) = (gap ++ (skipTrivia rest).1, (skipTrivia rest).2) := by
  induction blank with
  | none => rfl
  | space white _ ih =>
      rw [List.cons_append, skipTrivia, if_pos white, ih]
      rfl
  | @comment body more inside _ ih =>
      have line := @skipComment_line ('/' :: body) (by simpa using inside) (more ++ rest)
      rw [ih] at line
      rw [List.append_assoc, List.cons_append, List.cons_append, List.cons_append, skipTrivia,
        if_neg (by decide), if_pos ⟨rfl, rfl⟩, ← List.cons_append, line]
      simp

theorem Shape.skipped {first space : Char} {more : List Char} (shape : Shape (first :: more))
    (white : isSpace space = true) (rest : List Char) :
    skipTrivia (first :: more ++ space :: rest) = ([], first :: more ++ space :: rest) := by
  have noComment : ¬(first = '/' ∧ (more ++ space :: rest).head? = some '/') := by
    rintro ⟨rfl, slash⟩
    cases more with
    | nil =>
        cases slash
        exact absurd white (by decide)
    | cons second more =>
        cases slash
        exact absurd (shape.of_sign (by decide) (by decide) (by decide)).1 (by decide)
  rw [List.cons_append, skipTrivia, if_neg (by rw [shape.visible.1]; decide), if_neg noComment]

theorem scan_printed {kind : Kind} {shown : Text} (lexable : Lexable kind shown)
    {gap chars behind : List Char} (blank : Blank gap) (separated : Separator behind)
    (denoted : ∀ next, Denotes next chars kind shown) (rest : List Char) (pos : Pos) :
    (scan (gap ++ (chars ++ (behind ++ rest))) pos).token.content = (kind, shown) ∧
      (scan (gap ++ (chars ++ (behind ++ rest))) pos).rest = behind ++ rest := by
  obtain ⟨space, others, rfl, white⟩ := separated.starts
  obtain ⟨first, more, rfl⟩ := List.exists_cons_of_ne_nil (denoted []).ne_nil
  have shape := (denoted []).shape lexable.legal
  have skipped : skipTrivia (gap ++ (first :: more ++ (space :: others ++ rest))) =
      (gap ++ [], first :: (more ++ space :: (others ++ rest))) :=
    (blank.skipped _).trans
      (congrArg (Prod.map (gap ++ ·) id) (shape.skipped white (others ++ rest)))
  rw [scan, skipped]
  dsimp only
  rw [if_neg shape.visible.2, lexable.read denoted white]
  exact ⟨rfl, rfl⟩

theorem scan_ended {gap : List Char} (blank : Blank gap) (pos : Pos) :
    (scan gap pos).token.content = (.eof, []) := by
  have skipped := blank.skipped []
  rw [List.append_nil, skipTrivia] at skipped
  rw [scan, skipped]
  rfl

/-- Behind any separator, wherever it stands, the tokens are read one after another. -/
theorem tokensFrom_printed (items : List ((Kind × Text) × List Char))
    (fits : ∀ item ∈ items, Lexable item.1.1 item.1.2 ∧ Separator item.2) :
    ∃ rest, (items.flatMap fun item => spelling item.1.1 item.1.2 ++ Text.ofChars item.2) =
        Text.ofChars rest ∧
      ∀ gap pos, Blank gap →
        (tokensFrom (gap ++ rest) pos).map Token.content = items.map Prod.fst ++ [(.eof, [])] := by
  induction items with
  | nil =>
      refine ⟨[], rfl, fun gap pos blank => ?_⟩
      have ended := scan_ended blank pos
      have isEnd : (scan gap pos).token.kind = .eof := congrArg Prod.fst ended
      rw [List.append_nil, tokensFrom, if_pos isEnd, List.map_singleton, ended]
      rfl
  | cons item items ih =>
      obtain ⟨⟨kind, shown⟩, behind⟩ := item
      obtain ⟨⟨lexable, separated⟩, others⟩ := List.forall_mem_cons.mp fits
      obtain ⟨chars, spelled, denoted⟩ := lexable.denotes
      obtain ⟨rest, printed, reads⟩ := ih others
      refine ⟨chars ++ (behind ++ rest), ?_, fun gap pos blank => ?_⟩
      · rw [List.flatMap_cons, printed, spelled, Text.ofChars_append, Text.ofChars_append,
          List.append_assoc]
      · obtain ⟨content, remains⟩ := scan_printed lexable blank separated denoted rest pos
        have goesOn : (scan (gap ++ (chars ++ (behind ++ rest))) pos).token.kind ≠ .eof := by
          rw [show (scan (gap ++ (chars ++ (behind ++ rest))) pos).token.kind = kind from
            congrArg Prod.fst content]
          exact (denoted []).kind_ne_eof
        rw [tokensFrom, if_neg goesOn, List.map_cons, content, remains,
          reads behind _ separated.blank]
        rfl

/-- Lexing what is printed gives the tokens back. -/
theorem lexer_reads_printed (gap : List Char) (items : List ((Kind × Text) × List Char))
    (separated : Separator gap)
    (fits : ∀ item ∈ items, Lexable item.1.1 item.1.2 ∧ Separator item.2) :
    (Lexer.new (printed gap items)).drain.1.map Token.content =
      items.map Prod.fst ++ [(.eof, [])] := by
  obtain ⟨rest, spelled, reads⟩ := tokensFrom_printed items fits
  rw [Lexer.drain_new, tokens, printed, spelled, ← Text.ofChars_append, Text.chars_ofChars]
  exact reads gap .start separated.blank

/-- Lexemes that would run together, and a string with a comment and a line break in it. -/
def spacedItems : List ((Kind × Text) × List Char) :=
  [((.less, []), [' ']), ((.assign, []), [' ', '/', '/', '=', '\n']), ((.slash, []), ['\t']),
    ((.slash, []), ['\n']), ((.string, Text.ofChars ['/', '/', '\n']), [' ']),
      ((.ifWord, []), [' ']),
    ((.identifier, Text.ofChars ['i', 'f', '_', '2']), [' ']),
    ((.float, Text.ofChars ['1', '.']), [' ']), ((.int, Text.ofChars ['2']), ['\n'])]

theorem lexer_reads_printed_spaced :
    Separator ['\n'] ∧ (∀ item ∈ spacedItems, Lexable item.1.1 item.1.2 ∧ Separator item.2) ∧
      printed ['\n'] spacedItems = text "\n< = //=\n/\t/\n\"//\n\" if if_2 1. 2\n" ∧
      (Lexer.new (text "\n< = //=\n/\t/\n\"//\n\" if if_2 1. 2\n")).drain.1.map Token.content =
        spacedItems.map Prod.fst ++ [(.eof, [])] := by
  have space {char : Char} (white : isSpace char = true) : Separator [char] :=
    ⟨.space white .none, char, [], rfl, white⟩
  have line : Blank ('/' :: '/' :: ['='] ++ '\n' :: []) := .comment (by decide) .none
  have comment : Separator [' ', '/', '/', '=', '\n'] :=
    ⟨.space (by decide) line, ' ', _, rfl, by decide⟩
  have name : Lexable .identifier (Text.ofChars ['i', 'f', '_', '2']) :=
    .identifier (by decide) (List.all_eq_true.mp (by decide)) (by decide)
  have float : Lexable .float (Text.ofChars (['1'] ++ '.' :: [])) :=
    .float (by decide) (List.all_eq_true.mp (by decide))
  have fits : ∀ item ∈ spacedItems, Lexable item.1.1 item.1.2 ∧ Separator item.2 := by
    simp only [spacedItems, List.forall_mem_cons]
    exact ⟨⟨.sign (by decide), space (by decide)⟩, ⟨.sign (by decide), comment⟩,
      ⟨.sign (by decide), space (by decide)⟩, ⟨.sign (by decide), space (by decide)⟩,
      ⟨.string (by decide), space (by decide)⟩, ⟨.word (by decide), space (by decide)⟩,
      ⟨name, space (by decide)⟩, ⟨float, space (by decide)⟩,
      ⟨.int (by decide) (List.all_eq_true.mp (by decide)), space (by decide)⟩,
        List.forall_mem_nil _⟩
  have spelled : printed ['\n'] spacedItems =
      text "\n< = //=\n/\t/\n\"//\n\" if if_2 1. 2\n" := by
    decide +kernel
  refine ⟨space (by decide), fits, spelled, ?_⟩
  rw [← spelled]
  exact lexer_reads_printed ['\n'] spacedItems (space (by decide)) fits

end Rover
