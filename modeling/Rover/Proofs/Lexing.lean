import Mathlib.Algebra.Group.Nat.Defs
import Mathlib.Data.List.Nodup
import Rover.Proofs.Encoding
import Rover.Token.Lexer

/-!
What tokens are read from. Trivia and lexemes are described without the lexer, and what the lexer
takes off a source fits the description: a lexeme denotes its token, and no longer run of characters
from the same place on denotes a legal one.
-/

namespace Rover

namespace Kind

def words : List Kind := [ifWord, elseWord, whileWord, varWord, constWord]

def signs : List Kind :=
  [leftBrace, rightBrace, leftParen, rightParen, leftSquare, rightSquare, comma, semicolon, assign,
    plus, minus, star, slash, equal, notEqual, less, lessEqual, greater, greaterEqual, not, and, or]

end Kind

/-- White space and comments, with the characters that come `next`. A comment ends at a line break
or where there is nothing left. -/
inductive Trivia (next : List Char) : List Char → Prop
  | none : Trivia next []
  | space {char : Char} {rest : List Char} (white : isSpace char = true) (more : Trivia next rest) :
      Trivia next (char :: rest)
  | comment {body rest : List Char} (inside : '\n' ∉ body)
      (ends : rest = [] ∧ next = [] ∨ ∃ others, rest = '\n' :: others) (more : Trivia next rest) :
      Trivia next ('/' :: '/' :: body ++ rest)

/-- A lexeme, the kind and the text of its token. What comes `next` matters only to a string that is
not closed: there has to be nothing. -/
inductive Denotes (next : List Char) : List Char → Kind → Text → Prop
  | word {chars : List Char} {kind : Kind} (reserved : kind ∈ Kind.words)
      (named : Text.ofChars chars = kind.name) : Denotes next chars kind []
  | identifier {first : Char} {more : List Char} (starts : first.isAlpha = true)
      (goesOn : ∀ char ∈ more, isWordChar char = true)
      (free : ∀ kind ∈ Kind.words, kind.name ≠ Text.ofChars (first :: more)) :
      Denotes next (first :: more) .identifier (Text.ofChars (first :: more))
  | int {digits : List Char} (nonempty : digits ≠ []) (all : ∀ char ∈ digits, char.isDigit = true) :
      Denotes next digits .int (Text.ofChars digits)
  | float {whole fraction : List Char} (nonempty : whole ≠ [])
      (all : ∀ char ∈ whole ++ fraction, char.isDigit = true) :
      Denotes next (whole ++ '.' :: fraction) .float (Text.ofChars (whole ++ '.' :: fraction))
  | string {inside : List Char} (clean : '"' ∉ inside) :
      Denotes next ('"' :: inside ++ ['"']) .string (Text.ofChars inside)
  | sign {chars : List Char} {kind : Kind} (known : kind ∈ Kind.signs)
      (named : Text.ofChars chars = kind.name) : Denotes next chars kind []
  | unclosed {inside : List Char} (clean : '"' ∉ inside) (last : next = []) :
      Denotes next ('"' :: inside) .illegal (text "unterminated string literal")
  | stray {char : Char} (visible : isSpace char = false) (present : char ≠ '\x00')
      (noWord : char.isAlpha = false) (noNumber : char.isDigit = false) (noString : char ≠ '"')
      (noSign : ∀ kind ∈ Kind.signs, kind.name ≠ Text.ofChars [char]) :
      Denotes next [char] .illegal (text "unexpected character " ++ Text.quotedChar char)

theorem Denotes.kind_ne_eof {next chars : List Char} {kind : Kind} {text : Text}
    (denoted : Denotes next chars kind text) : kind ≠ .eof := by
  cases denoted with
  | word reserved _ =>
      rintro rfl
      exact absurd reserved (by decide)
  | sign known _ =>
      rintro rfl
      exact absurd known (by decide)
  | identifier | int | float | string | unclosed | stray => exact Kind.noConfusion

theorem chars_of_named {chars : List Char} {kind : Kind} (named : Text.ofChars chars = kind.name) :
    chars = kind.name.chars := by
  rw [← named, Text.chars_ofChars]

def singles : List Char :=
  ['{', '}', '(', ')', '[', ']', ',', ';', '=', '+', '-', '*', '/', '<', '>', '!']

def doubles : List (Char × Char) :=
  [('=', '='), ('!', '='), ('<', '='), ('>', '='), ('&', '&'), ('|', '|')]

theorem signs_chars : ∀ kind ∈ Kind.signs, kind.name.chars ∈
    singles.map (fun char => [char]) ++ doubles.map (fun pair => [pair.1, pair.2]) := by
  decide +kernel

theorem sign_chars {chars : List Char} {kind : Kind} (known : kind ∈ Kind.signs)
    (named : Text.ofChars chars = kind.name) :
    (∃ char ∈ singles, chars = [char]) ∨ ∃ pair ∈ doubles, chars = [pair.1, pair.2] := by
  have member := signs_chars kind known
  rw [← chars_of_named named, List.mem_append, List.mem_map, List.mem_map] at member
  exact member.imp (fun ⟨char, inside, same⟩ => ⟨char, inside, same.symm⟩)
    fun ⟨pair, inside, same⟩ => ⟨pair, inside, same.symm⟩

theorem words_letters : ∀ kind ∈ Kind.words, kind.name.chars.all Char.isAlpha = true := by
  decide +kernel

theorem isAlpha_iff {char : Char} : char.isAlpha = true ↔
    (65 ≤ char.toNat ∧ char.toNat ≤ 90) ∨ (97 ≤ char.toNat ∧ char.toNat ≤ 122) := by
  change (decide (65 ≤ char.val ∧ char.val ≤ 90) ||
    (decide (97 ≤ char.val) && decide (char.val ≤ 122))) = true ↔ _
  simp only [Bool.or_eq_true, Bool.and_eq_true, decide_eq_true_eq]
  rfl

theorem isWordChar_of_isAlpha {char : Char} (letter : char.isAlpha = true) :
    isWordChar char = true := by
  simp [isWordChar, letter]

/-- What a legal lexeme looks like is told by its first character. -/
inductive Shape (chars : List Char) : Prop
  | word (starts : ∀ first ∈ chars.head?, first.isAlpha = true)
      (all : ∀ char ∈ chars, isWordChar char = true)
  | number (starts : ∀ first ∈ chars.head?, first.isDigit = true)
      (all : ∀ char ∈ chars, char.isDigit = true ∨ char = '.') (points : chars.count '.' ≤ 1)
  | string (starts : chars.head? = some '"') (quotes : chars.count '"' = 2)
      (ends : chars.getLast? = some '"')
  | single (char : Char) (known : char ∈ singles) (same : chars = [char])
  | double (pair : Char × Char) (known : pair ∈ doubles) (same : chars = [pair.1, pair.2])

theorem not_isAlpha_of_isDigit {char : Char} (digit : char.isDigit = true) :
    char.isAlpha = false := by
  rw [Char.isDigit_iff_toNat] at digit
  change 48 ≤ char.toNat ∧ char.toNat ≤ 57 at digit
  rw [← Bool.not_eq_true, isAlpha_iff]
  omega

theorem singles_plain : ∀ char ∈ singles,
    char.isAlpha = false ∧ char.isDigit = false ∧ char ≠ '"' := by
  have each : singles.all (fun char => !char.isAlpha && (!char.isDigit && char != '"')) = true := by
    decide
  simpa using each

theorem doubles_plain : ∀ pair ∈ doubles,
    pair.1.isAlpha = false ∧ pair.1.isDigit = false ∧ pair.1 ≠ '"' := by
  have each : doubles.all (fun pair =>
      !pair.1.isAlpha && (!pair.1.isDigit && pair.1 != '"')) = true := by
    decide
  exact fun pair member => by simpa using List.all_eq_true.mp each pair member

theorem count_eq_zero_of_isDigit {digits : List Char} (all : ∀ char ∈ digits, char.isDigit = true) :
    digits.count '.' = 0 := by
  refine List.count_eq_zero.mpr fun member => ?_
  have digit := all '.' member
  exact absurd digit (by decide)

theorem Denotes.shape {next chars : List Char} {kind : Kind} {text : Text}
    (denoted : Denotes next chars kind text) (legal : kind ≠ .illegal) : Shape chars := by
  induction denoted with
  | word reserved named =>
      rw [chars_of_named named]
      have letters := List.all_eq_true.mp (words_letters _ reserved)
      exact .word (fun first member => letters first (List.mem_of_head? member))
        fun char member => isWordChar_of_isAlpha (letters char member)
  | @identifier first more starts goesOn _ =>
      refine .word (fun char member => ?_)
        (List.forall_mem_cons.mpr ⟨isWordChar_of_isAlpha starts, goesOn⟩)
      cases member
      exact starts
  | int _ all =>
      refine .number (fun first member => all first (List.mem_of_head? member))
        (fun char member => .inl (all char member)) ?_
      rw [count_eq_zero_of_isDigit all]
      exact Nat.zero_le 1
  | @float whole fraction nonempty all =>
      obtain ⟨first, more, rfl⟩ := List.exists_cons_of_ne_nil nonempty
      obtain ⟨before, after⟩ := List.forall_mem_append.mp all
      refine .number (fun char member => ?_) (fun char member => ?_) ?_
      · cases member
        exact before first List.mem_cons_self
      · rcases List.mem_append.mp member with inWhole | inRest
        · exact .inl (before char inWhole)
        · exact (List.mem_cons.mp inRest).symm.imp_left (after char)
      · apply Nat.le_of_eq
        rw [List.count_append, List.count_cons_self, count_eq_zero_of_isDigit before,
          count_eq_zero_of_isDigit after]
  | @string inside clean =>
      refine .string rfl ?_ ?_
      · simp [List.count_append, List.count_eq_zero.mpr clean]
      · rw [List.getLast?_concat]
  | sign known named =>
      rcases sign_chars known named with ⟨char, inside, same⟩ | ⟨pair, inside, same⟩
      · exact .single char inside same
      · exact .double pair inside same
  | unclosed _ _ => exact absurd rfl legal
  | stray _ _ _ _ _ _ => exact absurd rfl legal

namespace Shape

variable {first second : Char} {more : List Char}

theorem of_letter (shape : Shape (first :: more)) (letter : first.isAlpha = true) :
    ∀ char ∈ first :: more, isWordChar char = true := by
  cases shape with
  | word _ all => exact all
  | number starts _ _ =>
      rw [not_isAlpha_of_isDigit (starts first rfl)] at letter
      cases letter
  | string starts _ _ =>
      cases starts
      exact absurd letter (by decide)
  | single char known same =>
      cases same
      rw [(singles_plain _ known).1] at letter
      cases letter
  | double pair known same =>
      cases same
      rw [(doubles_plain _ known).1] at letter
      cases letter

theorem of_digit (shape : Shape (first :: more)) (digit : first.isDigit = true) :
    (∀ char ∈ first :: more, char.isDigit = true ∨ char = '.') ∧
      (first :: more).count '.' ≤ 1 := by
  cases shape with
  | word starts _ =>
      have letter := starts first rfl
      rw [not_isAlpha_of_isDigit digit] at letter
      cases letter
  | number _ all points => exact ⟨all, points⟩
  | string starts _ _ =>
      cases starts
      exact absurd digit (by decide)
  | single char known same =>
      cases same
      rw [(singles_plain _ known).2.1] at digit
      cases digit
  | double pair known same =>
      cases same
      rw [(doubles_plain _ known).2.1] at digit
      cases digit

theorem of_quote {chars : List Char} (shape : Shape chars) (quote : chars.head? = some '"') :
    chars.count '"' = 2 ∧ chars.getLast? = some '"' := by
  cases shape with
  | word starts _ => exact absurd (starts '"' quote) (by decide)
  | number starts _ _ => exact absurd (starts '"' quote) (by decide)
  | string _ quotes ends => exact ⟨quotes, ends⟩
  | single char known same =>
      rw [same] at quote
      exact absurd (Option.some.inj quote) (singles_plain _ known).2.2
  | double pair known same =>
      rw [same] at quote
      exact absurd (Option.some.inj quote) (doubles_plain _ known).2.2

theorem of_sign (shape : Shape (first :: second :: more)) (noLetter : first.isAlpha = false)
    (noDigit : first.isDigit = false) (noQuote : first ≠ '"') :
    (first, second) ∈ doubles ∧ more = [] := by
  cases shape with
  | word starts _ =>
      rw [starts first rfl] at noLetter
      cases noLetter
  | number starts _ _ =>
      rw [starts first rfl] at noDigit
      cases noDigit
  | string starts _ _ =>
      cases starts
      exact absurd rfl noQuote
  | single char known same => cases same
  | double pair known same =>
      cases same
      exact ⟨known, rfl⟩

end Shape

/-- No longer run of characters from the same place on denotes a legal token. -/
def Longest (lexeme next : List Char) : Prop :=
  ∀ more rest, more ≠ [] → next = more ++ rest →
    ∀ kind text, Denotes rest (lexeme ++ more) kind text → kind = .illegal

namespace Lexeme

/-- The characters of the lexeme denote its token, and there are as many of them as possible. -/
structure Fits (lexeme : Lexeme) : Prop where
  denotes : Denotes lexeme.rest lexeme.chars lexeme.kind lexeme.text
  longest : Longest lexeme.chars lexeme.rest

theorem longest_of_next {lexeme next : List Char}
    (stops : ∀ second others, next = second :: others → ∀ more, ¬Shape (lexeme ++ second :: more)) :
    Longest lexeme next := by
  intro more rest nonempty split kind text denoted
  obtain ⟨second, others, rfl⟩ := List.exists_cons_of_ne_nil nonempty
  by_cases legal : kind = .illegal
  · exact legal
  · exact absurd (denoted.shape legal) (stops second (others ++ rest) split others)

theorem of_mem_takeWhile {holds : Char → Bool} {chars : List Char} :
    ∀ char ∈ chars.takeWhile holds, holds char = true :=
  List.all_eq_true.mp List.all_takeWhile

theorem next_of_dropWhile {holds : Char → Bool} {chars others : List Char} {second : Char}
    (starts : chars.dropWhile holds = second :: others) : holds second = false := by
  have stop := List.head?_dropWhile_not (p := holds) (l := chars)
  rw [starts] at stop
  simpa using stop

theorem word_fits {first : Char} (letter : first.isAlpha = true) (rest : List Char) :
    (word first rest).Fits := by
  have longest : Longest (first :: rest.takeWhile isWordChar) (rest.dropWhile isWordChar) := by
    refine longest_of_next fun second others starts more shape => ?_
    have inside := shape.of_letter letter second (by simp)
    rw [next_of_dropWhile starts] at inside
    cases inside
  have words : Kind.words = [.ifWord, .elseWord, .whileWord, .varWord, .constWord] := rfl
  unfold word
  dsimp only
  split
  · next kind found =>
      rw [Kind.ofWord?, ← words] at found
      have named : kind.name = Text.ofChars (first :: rest.takeWhile isWordChar) := by
        simpa using List.find?_some found
      exact ⟨.word (List.mem_of_find?_eq_some found) named.symm, longest⟩
  · next free =>
      rw [Kind.ofWord?, ← words] at free
      refine ⟨.identifier letter of_mem_takeWhile ?_, longest⟩
      intro kind member named
      have other := List.find?_eq_none.mp free kind member
      exact other (beq_iff_eq.mpr named)

theorem number_fits {first : Char} (digit : first.isDigit = true) (rest : List Char) :
    (number first rest).Fits := by
  have whole : ∀ char ∈ first :: rest.takeWhile Char.isDigit, char.isDigit = true :=
    List.forall_mem_cons.mpr ⟨digit, of_mem_takeWhile⟩
  unfold number
  dsimp only
  split
  · next after found =>
      refine ⟨.float (List.cons_ne_nil _ _) (List.forall_mem_append.mpr
        ⟨whole, of_mem_takeWhile⟩), ?_⟩
      refine longest_of_next fun second others starts more shape => ?_
      obtain ⟨all, points⟩ := shape.of_digit digit
      rcases all second (by simp) with another | point
      · rw [next_of_dropWhile starts] at another
        cases another
      · -- a number has one point at most
        subst point
        simp [List.count_append, List.count_cons] at points
        omega
  · next after noPoint =>
      refine ⟨.int (List.cons_ne_nil _ _) whole, ?_⟩
      refine longest_of_next fun second others starts more shape => ?_
      rcases (shape.of_digit digit).1 second (by simp) with another | point
      · rw [next_of_dropWhile starts] at another
        cases another
      · subst point
        exact noPoint others starts

theorem quote_fits (rest : List Char) : (quote rest).Fits := by
  have clean : '"' ∉ rest.takeWhile (· != '"') := by
    intro member
    have other := of_mem_takeWhile '"' member
    simp at other
  unfold quote
  dsimp only
  split
  · next char after found =>
      refine ⟨.string clean, ?_⟩
      refine longest_of_next fun second others starts more shape => ?_
      obtain ⟨quotes, ends⟩ := shape.of_quote rfl
      -- a longer string would end with a third quote
      rw [List.getLast?_append, List.getLast?_eq_some_getLast (List.cons_ne_nil second more),
        Option.some_or, ← List.getLast?_eq_some_getLast] at ends
      have third := List.count_pos_iff.mpr (List.mem_of_getLast? ends)
      have first : 0 < ['"'].count '"' := by decide
      rw [List.count_append, List.count_append, List.count_cons_self] at quotes
      omega
  · exact ⟨.unclosed clean rfl, longest_of_next fun _ _ starts => by cases starts⟩

theorem single_fits {first : Char} {rest : List Char} {kind : Kind} (known : kind ∈ Kind.signs)
    (named : Text.ofChars [first] = kind.name)
    (alone : ∀ second others, rest = second :: others → (first, second) ∉ doubles) :
    (sign kind [first] rest).Fits := by
  have inside : first ∈ singles := by
    rcases sign_chars known named with ⟨char, inside, same⟩ | ⟨pair, inside, same⟩
    · cases same
      exact inside
    · cases same
  obtain ⟨noLetter, noDigit, noQuote⟩ := singles_plain first inside
  exact ⟨.sign known named, longest_of_next fun second others starts more shape =>
    alone second others starts (shape.of_sign noLetter noDigit noQuote).1⟩

theorem double_fits {first second : Char} {kind : Kind} (known : kind ∈ Kind.signs)
    (named : Text.ofChars [first, second] = kind.name) (rest : List Char) :
    (sign kind [first, second] rest).Fits := by
  have inside : (first, second) ∈ doubles := by
    rcases sign_chars known named with ⟨char, inside, same⟩ | ⟨pair, inside, same⟩
    · cases same
    · cases same
      exact inside
  obtain ⟨noLetter, noDigit, noQuote⟩ := doubles_plain _ inside
  exact ⟨.sign known named, longest_of_next fun third others _ more shape =>
    absurd (shape.of_sign noLetter noDigit noQuote).2 (List.cons_ne_nil third more)⟩

theorem operator_fits {first : Char} {rest : List Char} (visible : isSpace first = false)
    (present : first ≠ '\x00') (noLetter : first.isAlpha = false) (noDigit : first.isDigit = false)
    (noQuote : first ≠ '"') : (operator first rest).Fits := by
  unfold operator
  split
  case h_13 | h_15 | h_17 | h_19 | h_21 | h_22 =>
    exact double_fits (by decide) (by decide) _
  case h_14 alone | h_16 alone | h_18 alone | h_20 alone =>
    refine single_fits (by decide) (by decide) fun second others starts pair => ?_
    have twice : second = '=' := by simpa [doubles] using pair
    exact alone others (by rw [starts, twice])
  case h_23 noAnd noOr =>
    have noSingle : first ∉ singles := by
      simp only [singles, List.mem_cons, List.not_mem_nil, or_false]
      grind
    refine ⟨.stray visible present noLetter noDigit noQuote fun kind known named => ?_,
      longest_of_next fun second others starts more shape => ?_⟩
    · rcases sign_chars known named.symm with ⟨char, inside, same⟩ | ⟨pair, inside, same⟩
      · cases same
        exact noSingle inside
      · cases same
    · change rest = second :: others at starts
      have pair := (shape.of_sign noLetter noDigit noQuote).1
      simp only [doubles, List.mem_cons, Prod.mk.injEq, List.not_mem_nil, or_false] at pair
      obtain ⟨rfl, -⟩ | ⟨rfl, -⟩ | ⟨rfl, -⟩ | ⟨rfl, -⟩ | ⟨rfl, rfl⟩ | ⟨rfl, rfl⟩ := pair
      case inr.inr.inr.inr.inl => exact noAnd others rfl starts
      case inr.inr.inr.inr.inr => exact noOr others rfl starts
      all_goals exact noSingle (by decide)
  all_goals exact single_fits (by decide) (by decide) (by simp [doubles])

theorem read_fits {first : Char} {rest : List Char} (visible : isSpace first = false)
    (present : first ≠ '\x00') : (read first rest).Fits := by
  unfold read
  split
  · next letter => exact word_fits letter rest
  · next noLetter =>
      split
      · next digit => exact number_fits digit rest
      · next noDigit =>
          split
          · exact quote_fits rest
          · next noQuote =>
              exact operator_fits visible present (Bool.eq_false_iff.mpr noLetter)
                (Bool.eq_false_iff.mpr noDigit) noQuote

end Lexeme

def readAlone : List Char → Option (Kind × Text)
  | [] => none
  | first :: more => some ((Lexeme.read first more).kind, (Lexeme.read first more).text)

theorem named_readAlone :
    ∀ kind ∈ Kind.words ++ Kind.signs, readAlone kind.name.chars = some (kind, []) := by
  decide +kernel

theorem singles_named :
    ∀ char ∈ singles, ∃ kind ∈ Kind.signs, kind.name = Text.ofChars [char] := by
  have each : singles.all (fun char =>
      Kind.signs.any fun kind => kind.name == Text.ofChars [char]) = true := by
    decide
  simpa using each

theorem takeWhile_all {holds : Char → Bool} {chars : List Char}
    (all : ∀ char ∈ chars, holds char = true) :
    chars.takeWhile holds = chars ∧ chars.dropWhile holds = [] := by
  have taken : (chars ++ []).takeWhile holds = chars := by
    rw [List.takeWhile_append_of_pos all, List.takeWhile_nil, List.append_nil]
  have dropped : (chars ++ []).dropWhile holds = [] := by
    rw [List.dropWhile_append_of_pos all, List.dropWhile_nil]
  rw [List.append_nil] at taken dropped
  exact ⟨taken, dropped⟩

theorem ne_quote_of_not_mem {inside : List Char} (clean : '"' ∉ inside) :
    ∀ char ∈ inside, (char != '"') = true := by
  intro char member
  rw [bne_iff_ne]
  rintro rfl
  exact clean member

theorem operator_stray {char : Char} (noSingle : char ∉ singles) :
    Lexeme.operator char [] = Lexeme.illegal char [] := by
  unfold Lexeme.operator
  split
  case h_13 starts | h_15 starts | h_17 starts | h_19 starts | h_21 starts | h_22 starts =>
    cases starts
  case h_23 => rfl
  all_goals exact absurd (by decide) noSingle

theorem Denotes.readAlone_eq {next chars : List Char} {kind : Kind} {text : Text}
    (denoted : Denotes next chars kind text) : readAlone chars = some (kind, text) := by
  cases denoted with
  | word reserved named =>
      rw [chars_of_named named]
      exact named_readAlone kind (List.mem_append_left _ reserved)
  | @identifier first more starts goesOn free =>
      have unreserved : Kind.ofWord? (Text.ofChars (first :: more)) = none :=
        List.find?_eq_none.mpr fun kind member same => free kind member (eq_of_beq same)
      rw [readAlone, Lexeme.read, if_pos starts, Lexeme.word, (takeWhile_all goesOn).1, unreserved]
  | int nonempty all =>
      obtain ⟨first, more, rfl⟩ := List.exists_cons_of_ne_nil nonempty
      obtain ⟨digit, goesOn⟩ := List.forall_mem_cons.mp all
      obtain ⟨whole, nothing⟩ := takeWhile_all goesOn
      rw [readAlone, Lexeme.read, not_isAlpha_of_isDigit digit, if_neg (by decide), if_pos digit,
        Lexeme.number, whole, nothing]
  | @float whole fraction nonempty all =>
      obtain ⟨first, more, rfl⟩ := List.exists_cons_of_ne_nil nonempty
      obtain ⟨before, after⟩ := List.forall_mem_append.mp all
      obtain ⟨digit, goesOn⟩ := List.forall_mem_cons.mp before
      have text : Text.ofChars (first :: more ++ '.' :: fraction.takeWhile Char.isDigit) =
          Text.ofChars (first :: more ++ '.' :: fraction) := by
        rw [(takeWhile_all after).1]
      rw [List.cons_append, readAlone, Lexeme.read, not_isAlpha_of_isDigit digit,
        if_neg (by decide), if_pos digit, Lexeme.number, List.takeWhile_append_of_pos goesOn,
        List.dropWhile_append_of_pos goesOn, List.takeWhile_cons_of_neg (by decide),
        List.dropWhile_cons_of_neg (by decide), List.append_nil]
      exact congrArg (fun shown => some (Kind.float, shown)) text
  | @string inside clean =>
      have within := ne_quote_of_not_mem clean
      rw [List.cons_append, readAlone, Lexeme.read, if_neg (by decide), if_neg (by decide),
        if_pos rfl, Lexeme.quote, List.takeWhile_append_of_pos within,
        List.dropWhile_append_of_pos within, List.takeWhile_cons_of_neg (by decide),
        List.dropWhile_cons_of_neg (by decide), List.append_nil]
  | sign known named =>
      rw [chars_of_named named]
      exact named_readAlone kind (List.mem_append_right _ known)
  | @unclosed inside clean _ =>
      rw [readAlone, Lexeme.read, if_neg (by decide), if_neg (by decide), if_pos rfl, Lexeme.quote,
        (takeWhile_all (ne_quote_of_not_mem clean)).2]
  | @stray char _ _ noWord noNumber noString noSign =>
      have noSingle : char ∉ singles := by
        intro member
        obtain ⟨kind, known, named⟩ := singles_named char member
        exact noSign kind known named
      rw [readAlone, Lexeme.read, noWord, noNumber, if_neg (by decide), if_neg (by decide),
        if_neg noString, operator_stray noSingle]
      rfl

theorem Denotes.ne_nil {next chars : List Char} {kind : Kind} {text : Text}
    (denoted : Denotes next chars kind text) : chars ≠ [] := by
  rintro rfl
  exact absurd denoted.readAlone_eq nofun

theorem Denotes.unique {next after chars : List Char} {kind kind' : Kind} {text text' : Text}
    (denoted : Denotes next chars kind text) (again : Denotes after chars kind' text') :
    kind = kind' ∧ text = text' := by
  have same := denoted.readAlone_eq.symm.trans again.readAlone_eq
  cases same
  exact ⟨rfl, rfl⟩

end Rover
