import Rover.Token
import Rover.Text.Space

/-!
The lexer cuts the characters of a source into tokens. White space and comments between tokens are
skipped, a character that starts no token becomes an illegal one, and a NUL outside strings and
comments ends the source.
-/

namespace Rover

mutual

/-- Trivia is white space and comments; a comment runs from `//` up to the end of its line. -/
def skipTrivia : List Char → List Char × List Char
  | [] => ([], [])
  | char :: rest =>
      if isSpace char then
        (skipTrivia rest).map (char :: ·) id
      else if char = '/' ∧ rest.head? = some '/' then
        (skipComment rest).map (char :: ·) id
      else ([], char :: rest)

def skipComment : List Char → List Char × List Char
  | [] => ([], [])
  | char :: rest =>
      if char = '\n' then
        (skipTrivia rest).map (char :: ·) id
      else
        (skipComment rest).map (char :: ·) id

end

mutual

theorem skipTrivia_append : (source : List Char) →
    (skipTrivia source).1 ++ (skipTrivia source).2 = source
  | [] => by simp [skipTrivia]
  | char :: rest => by
      have trivia := skipTrivia_append rest
      have comment := skipComment_append rest
      rw [skipTrivia]
      split
      · simpa using trivia
      · split
        · simpa using comment
        · rfl

theorem skipComment_append : (source : List Char) →
    (skipComment source).1 ++ (skipComment source).2 = source
  | [] => by simp [skipComment]
  | char :: rest => by
      have trivia := skipTrivia_append rest
      have comment := skipComment_append rest
      rw [skipComment]
      split
      · simpa using trivia
      · simpa using comment

end

theorem length_skipTrivia_le (source : List Char) :
    (skipTrivia source).2.length ≤ source.length := by
  have total := congrArg List.length (skipTrivia_append source)
  simp only [List.length_append] at total
  omega

/-- A lexeme is the run of characters that one token is read from. -/
structure Lexeme where
  kind : Kind
  text : Text
  chars : List Char
  rest : List Char

def isWordChar (char : Char) : Bool :=
  char.isAlpha || char.isDigit || char == '_'

def Lexeme.word (first : Char) (rest : List Char) : Lexeme :=
  let chars := first :: rest.takeWhile isWordChar
  let after := rest.dropWhile isWordChar
  match Kind.ofWord? (Text.ofChars chars) with
  | some kind => ⟨kind, [], chars, after⟩
  | none => ⟨.identifier, Text.ofChars chars, chars, after⟩

/-- Digits make an integer; a dot right after them, and the digits after it, make a float. -/
def Lexeme.number (first : Char) (rest : List Char) : Lexeme :=
  let whole := first :: rest.takeWhile Char.isDigit
  match rest.dropWhile Char.isDigit with
  | '.' :: after =>
      let chars := whole ++ '.' :: after.takeWhile Char.isDigit
      ⟨.float, Text.ofChars chars, chars, after.dropWhile Char.isDigit⟩
  | after => ⟨.int, Text.ofChars whole, whole, after⟩

/-- A string runs to the next double quote; there are no escapes. -/
def Lexeme.quote (rest : List Char) : Lexeme :=
  let inside := rest.takeWhile (· != '"')
  match rest.dropWhile (· != '"') with
  | _ :: after => ⟨.string, Text.ofChars inside, '"' :: inside ++ ['"'], after⟩
  | [] => ⟨.illegal, Rover.text "unterminated string literal", '"' :: inside, []⟩

def Lexeme.sign (kind : Kind) (chars rest : List Char) : Lexeme :=
  ⟨kind, [], chars, rest⟩

def Lexeme.illegal (first : Char) (rest : List Char) : Lexeme :=
  ⟨.illegal, Rover.text "unexpected character " ++ Text.quotedChar first, [first], rest⟩

/-- Operators and punctuation; of two operators that start alike the longer one is read. -/
def Lexeme.operator (first : Char) (rest : List Char) : Lexeme :=
  match first, rest with
  | '+', _ => sign .plus [first] rest
  | '-', _ => sign .minus [first] rest
  | '*', _ => sign .star [first] rest
  | '/', _ => sign .slash [first] rest
  | '{', _ => sign .leftBrace [first] rest
  | '}', _ => sign .rightBrace [first] rest
  | '(', _ => sign .leftParen [first] rest
  | ')', _ => sign .rightParen [first] rest
  | '[', _ => sign .leftSquare [first] rest
  | ']', _ => sign .rightSquare [first] rest
  | ',', _ => sign .comma [first] rest
  | ';', _ => sign .semicolon [first] rest
  | '=', '=' :: after => sign .equal [first, '='] after
  | '=', _ => sign .assign [first] rest
  | '!', '=' :: after => sign .notEqual [first, '='] after
  | '!', _ => sign .not [first] rest
  | '<', '=' :: after => sign .lessEqual [first, '='] after
  | '<', _ => sign .less [first] rest
  | '>', '=' :: after => sign .greaterEqual [first, '='] after
  | '>', _ => sign .greater [first] rest
  | '&', '&' :: after => sign .and [first, '&'] after
  | '|', '|' :: after => sign .or [first, '|'] after
  | _, _ => illegal first rest

def Lexeme.read (first : Char) (rest : List Char) : Lexeme :=
  if first.isAlpha then word first rest
  else if first.isDigit then number first rest
  else if first = '"' then quote rest
  else operator first rest

theorem Lexeme.word_append (first : Char) (rest : List Char) :
    (word first rest).chars ++ (word first rest).rest = first :: rest := by
  unfold word
  dsimp only
  split <;> simp

theorem Lexeme.number_append (first : Char) (rest : List Char) :
    (number first rest).chars ++ (number first rest).rest = first :: rest := by
  have parts := List.takeWhile_append_dropWhile (p := Char.isDigit) (l := rest)
  unfold number
  dsimp only
  split
  · next after found =>
      rw [found] at parts
      simp only [List.cons_append, List.append_assoc, List.takeWhile_append_dropWhile]
      rw [parts]
  · simp

theorem Lexeme.quote_append (rest : List Char) :
    (quote rest).chars ++ (quote rest).rest = '"' :: rest := by
  have parts := List.takeWhile_append_dropWhile (p := (· != '"')) (l := rest)
  unfold quote
  dsimp only
  split
  · next char after found =>
      have stop := List.head?_dropWhile_not (p := (· != '"')) (l := rest)
      rw [found] at parts stop
      have isQuote : char = '"' := by simpa using stop
      subst isQuote
      simp only [List.cons_append, List.append_assoc, List.nil_append]
      rw [parts]
  · next found =>
      rw [found] at parts
      simpa using parts

theorem Lexeme.operator_append (first : Char) (rest : List Char) :
    (operator first rest).chars ++ (operator first rest).rest = first :: rest := by
  unfold operator
  split <;> rfl

theorem Lexeme.read_append (first : Char) (rest : List Char) :
    (read first rest).chars ++ (read first rest).rest = first :: rest := by
  unfold read
  split
  · exact word_append first rest
  · split
    · exact number_append first rest
    · split
      · next isQuote => rw [quote_append, isQuote]
      · exact operator_append first rest

theorem Lexeme.read_chars_ne_nil (first : Char) (rest : List Char) :
    (read first rest).chars ≠ [] := by
  unfold read
  split
  · unfold word
    dsimp only
    split <;> simp
  · split
    · unfold number
      dsimp only
      split <;> simp
    · split
      · unfold quote
        dsimp only
        split <;> simp
      · unfold operator
        split <;> simp [sign, illegal]

theorem Lexeme.length_rest_le (first : Char) (rest : List Char) :
    (read first rest).rest.length ≤ rest.length := by
  have total := congrArg List.length (read_append first rest)
  have nonempty := List.length_pos_iff.2 (read_chars_ne_nil first rest)
  simp only [List.length_append, List.length_cons] at total
  omega

structure Scan where
  token : Token
  rest : List Char
  pos : Pos

def scan (source : List Char) (pos : Pos) : Scan :=
  let start := pos.past (skipTrivia source).1
  match (skipTrivia source).2 with
  | [] => ⟨.finish start, [], start⟩
  | first :: rest =>
      if first = '\x00' then ⟨.finish start, rest, start.next first⟩
      else
        let lexeme := Lexeme.read first rest
        ⟨⟨lexeme.kind, lexeme.text, start⟩, lexeme.rest, start.past lexeme.chars⟩

theorem length_scan_lt {source : List Char} {pos : Pos}
    (more : (scan source pos).token.kind ≠ .eof) :
    (scan source pos).rest.length < source.length := by
  have trivia := length_skipTrivia_le source
  revert more
  unfold scan
  dsimp only
  split
  · intro more
    exact absurd rfl more
  · next first rest found =>
      rw [found] at trivia
      simp only [List.length_cons] at trivia
      split
      · intro more
        exact absurd rfl more
      · intro _
        have shorter := Lexeme.length_rest_le first rest
        dsimp only
        omega

/-- The tokens from a place in the source on, through the first end of file. -/
def tokensFrom (source : List Char) (pos : Pos) : List Token :=
  let step := scan source pos
  if step.token.kind = .eof then [step.token]
  else step.token :: tokensFrom step.rest step.pos
termination_by source.length
decreasing_by exact length_scan_lt (by assumption)

def tokens (source : Text) : List Token :=
  tokensFrom source.chars Pos.start

/-- A lexer in use hands out tokens one at a time and can look one token ahead. -/
structure Lexer where
  source : List Char
  pos : Pos
  ahead : Option Token
  deriving Repr

namespace Lexer

def new (source : Text) : Lexer := ⟨source.chars, Pos.start, none⟩

/-- The next token, which stays the next one. -/
def peek (lexer : Lexer) : Token × Lexer :=
  match lexer.ahead with
  | some token => (token, lexer)
  | none =>
      let step := scan lexer.source lexer.pos
      (step.token, ⟨step.rest, step.pos, some step.token⟩)

/-- The next token, which is then used up unless it is the end of the source. -/
def consume (lexer : Lexer) : Token × Lexer :=
  let (token, looked) := lexer.peek
  if token.kind = .eof then (token, looked) else (token, { looked with ahead := none })

def consumeIf (kinds : List Kind) (lexer : Lexer) : Option Token × Lexer :=
  let (token, looked) := lexer.peek
  if kinds.contains token.kind then
    let (token, after) := looked.consume
    (some token, after)
  else (none, looked)

theorem peek_measure (lexer : Lexer) (more : lexer.peek.1.kind ≠ .eof) :
    lexer.peek.2.source.length < lexer.source.length + lexer.ahead.toList.length := by
  unfold peek at more ⊢
  cases held : lexer.ahead with
  | some token => simp
  | none =>
      rw [held] at more
      simpa using length_scan_lt more

/-- The tokens that are left, through the end of the source, which is then the next token. -/
def drain (lexer : Lexer) : List Token × Lexer :=
  if lexer.peek.1.kind = .eof then ([lexer.peek.1], lexer.peek.2)
  else (drain { lexer.peek.2 with ahead := none }).map (lexer.peek.1 :: ·) id
termination_by lexer.source.length + lexer.ahead.toList.length
decreasing_by simpa using peek_measure lexer (by assumption)

end Lexer

/-- The depth of a source is how many brackets it leaves open. -/
def Kind.depth : Kind → Int
  | .leftBrace | .leftParen | .leftSquare => 1
  | .rightBrace | .rightParen | .rightSquare => -1
  | _ => 0

def openDepth (source : Text) : Int :=
  (tokens source).foldl (fun depth token => depth + token.kind.depth) 0

end Rover
