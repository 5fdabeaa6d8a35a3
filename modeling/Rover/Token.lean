import Rover.Text
import Rover.Text.Quoted

namespace Rover

/-- A place in a source counts lines and characters, both from 1. -/
structure Pos where
  line : Int
  col : Int
  deriving DecidableEq, Repr

namespace Pos

def start : Pos := ⟨1, 1⟩

def unknown : Pos := ⟨0, 0⟩

def next (pos : Pos) (char : Char) : Pos :=
  if char = '\n' then ⟨pos.line + 1, 1⟩ else ⟨pos.line, pos.col + 1⟩

def past (pos : Pos) (chars : List Char) : Pos :=
  chars.foldl next pos

@[simp] theorem past_nil (pos : Pos) : pos.past [] = pos := rfl

@[simp] theorem past_cons (pos : Pos) (char : Char) (chars : List Char) :
    pos.past (char :: chars) = (pos.next char).past chars := rfl

@[simp] theorem past_append (pos : Pos) (first second : List Char) :
    pos.past (first ++ second) = (pos.past first).past second := by
  simp [past]

def shown (pos : Pos) : Text :=
  Text.ofInt pos.line ++ text ":" ++ Text.ofInt pos.col

end Pos

/-- Kinds tell tokens apart. A kind beyond the known ones carries its own number. -/
inductive Kind where
  | eof
  | illegal
  | ifWord
  | elseWord
  | whileWord
  | varWord
  | constWord
  | identifier
  | int
  | float
  | string
  | leftBrace
  | rightBrace
  | leftParen
  | rightParen
  | leftSquare
  | rightSquare
  | comma
  | semicolon
  | assign
  | plus
  | minus
  | star
  | slash
  | equal
  | notEqual
  | less
  | lessEqual
  | greater
  | greaterEqual
  | not
  | and
  | or
  | unknown (code : Int)
  deriving DecidableEq, Repr

namespace Kind

def known : List Kind :=
  [eof, illegal, ifWord, elseWord, whileWord, varWord, constWord, identifier, int, float, string,
    leftBrace, rightBrace, leftParen, rightParen, leftSquare, rightSquare, comma, semicolon,
    assign, plus, minus, star, slash, equal, notEqual, less, lessEqual, greater, greaterEqual,
    not, and, or]

def ofCode (code : Int) : Kind :=
  if 0 ≤ code then known.getD code.toNat (unknown code) else unknown code

/-- What a kind is called; for keywords, operators and punctuation this is also their spelling. -/
def name : Kind → Text
  | eof => text "end of file"
  | illegal => text "illegal token"
  | ifWord => text "if"
  | elseWord => text "else"
  | whileWord => text "while"
  | varWord => text "var"
  | constWord => text "const"
  | identifier => text "identifier"
  | int => text "integer literal"
  | float => text "float literal"
  | string => text "string literal"
  | leftBrace => text "\x7b"
  | rightBrace => text "\x7d"
  | leftParen => text "("
  | rightParen => text ")"
  | leftSquare => text "["
  | rightSquare => text "]"
  | comma => text ","
  | semicolon => text ";"
  | assign => text "="
  | plus => text "+"
  | minus => text "-"
  | star => text "*"
  | slash => text "/"
  | equal => text "=="
  | notEqual => text "!="
  | less => text "<"
  | lessEqual => text "<="
  | greater => text ">"
  | greaterEqual => text ">="
  | not => text "!"
  | and => text "&&"
  | or => text "||"
  | unknown code => text "unknown_kind_" ++ Text.ofInt code

def ofWord? (word : Text) : Option Kind :=
  [ifWord, elseWord, whileWord, varWord, constWord].find? (·.name == word)

end Kind

/-- The text of a token is the name of an identifier, the text of a literal, or the message of an
illegal token; the other kinds have none. -/
structure Token where
  kind : Kind
  text : Text
  pos : Pos
  deriving DecidableEq, Repr

namespace Token

def finish (pos : Pos) : Token := ⟨.eof, [], pos⟩

/-- A token as messages mention it. -/
def shown (token : Token) : Text :=
  match token.kind with
  | .identifier | .int | .float => token.kind.name ++ Rover.text " " ++ token.text.quoted
  | .string => Rover.text "string " ++ token.text.quoted
  | .illegal => token.text
  | .eof => token.kind.name
  | kind => Rover.text "'" ++ kind.name ++ Rover.text "'"

end Token
end Rover
