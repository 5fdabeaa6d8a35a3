import Rover.Program.Parser

/-!
The grammar of programs, as productions over token lists. Each production also says which tree it
builds; the places that nodes carry are left open, so a derivation gives a tree up to places.
-/

namespace Rover

open Rover.Parser (Tier)

inductive Symbol where
  | program
  | statements
  | statement
  | conditional
  | block
  | expression
  | disjunction
  | conjunction
  | operation (tier : Tier)
  | unary
  | applied
  | primary
  | list
  deriving DecidableEq, Repr

/-- What a derivation from a symbol builds. -/
abbrev Symbol.Tree : Symbol → Type
  | program | statements | block => List Stmt
  | statement | conditional => Stmt
  | list => List Expr
  | expression | disjunction | conjunction | operation _ | unary | applied | primary => Expr

inductive Joins : Tier → Kind → BinaryOp → Prop
  | equal : Joins .equality .equal .equal
  | notEqual : Joins .equality .notEqual .notEqual
  | less : Joins .comparison .less .less
  | lessEqual : Joins .comparison .lessEqual .lessEqual
  | greater : Joins .comparison .greater .greater
  | greaterEqual : Joins .comparison .greaterEqual .greaterEqual
  | plus : Joins .sum .plus .add
  | minus : Joins .sum .minus .subtract
  | star : Joins .product .star .multiply
  | slash : Joins .product .slash .divide

inductive Signs : Kind → UnaryOp → Prop
  | not : Signs .not .not
  | minus : Signs .minus .negate

/-- The tokens of a list derive from a symbol and build a tree. -/
inductive Derives : (symbol : Symbol) → List Token → symbol.Tree → Prop
  -- program = statement* end
  | program {tokens : List Token} {body : List Stmt} {final : Token} :
      Derives .statements tokens body → final.kind = .eof →
        Derives .program (tokens ++ [final]) body
  | none : Derives .statements [] []
  | more {first rest : List Token} {stmt : Stmt} {others : List Stmt} :
      Derives .statement first stmt → Derives .statements rest others →
        Derives .statements (first ++ rest) (stmt :: others)
  -- statement = conditional | while expression block | block | definition | expression ;
  | branch {tokens : List Token} {stmt : Stmt} :
      Derives .conditional tokens stmt → Derives .statement tokens stmt
  | loop {word : Token} {test inner : List Token} {condition : Expr} {body : List Stmt}
      {bodyPos pos : Pos} :
      word.kind = .whileWord → Derives .expression test condition → Derives .block inner body →
        Derives .statement (word :: test ++ inner) (.loop condition body bodyPos pos)
  | nested {tokens : List Token} {body : List Stmt} {pos : Pos} :
      Derives .block tokens body → Derives .statement tokens (.block body pos)
  | definition {word name sign final : Token} {tokens : List Token} {initial : Expr}
      {constant : Bool} {namePos pos : Pos} :
      word.kind = (if constant then .constWord else .varWord) → name.kind = .identifier →
        sign.kind = .assign → Derives .expression tokens initial → final.kind = .semicolon →
          Derives .statement (word :: name :: sign :: tokens ++ [final])
            (.define name.text namePos initial constant pos)
  | effect {tokens : List Token} {expr : Expr} {final : Token} {pos : Pos} :
      Derives .expression tokens expr → final.kind = .semicolon →
        Derives .statement (tokens ++ [final]) (.eval expr pos)
  -- conditional = if expression block [else (conditional | block)]
  | single {word : Token} {test inner : List Token} {condition : Expr} {body : List Stmt}
      {bodyPos pos : Pos} :
      word.kind = .ifWord → Derives .expression test condition → Derives .block inner body →
        Derives .conditional (word :: test ++ inner) (.cond condition body bodyPos .absent pos)
  | chained {word other : Token} {test inner last : List Token} {condition : Expr}
      {body : List Stmt} {otherwise : Stmt} {bodyPos pos : Pos} :
      word.kind = .ifWord → Derives .expression test condition → Derives .block inner body →
        other.kind = .elseWord → Derives .conditional last otherwise →
          Derives .conditional (word :: test ++ inner ++ other :: last)
            (.cond condition body bodyPos otherwise pos)
  | double {word other : Token} {test inner last : List Token} {condition : Expr}
      {body otherwise : List Stmt} {bodyPos otherPos pos : Pos} :
      word.kind = .ifWord → Derives .expression test condition → Derives .block inner body →
        other.kind = .elseWord → Derives .block last otherwise →
          Derives .conditional (word :: test ++ inner ++ other :: last)
            (.cond condition body bodyPos (.block otherwise otherPos) pos)
  -- block = { statement* }
  | braced {opening closing : Token} {tokens : List Token} {body : List Stmt} :
      opening.kind = .leftBrace → Derives .statements tokens body → closing.kind = .rightBrace →
        Derives .block (opening :: tokens ++ [closing]) body
  -- expression = disjunction [= expression]
  | valued {tokens : List Token} {expr : Expr} :
      Derives .disjunction tokens expr → Derives .expression tokens expr
  | assigned {left right : List Token} {sign : Token} {target value : Expr} {pos : Pos} :
      Derives .disjunction left target → sign.kind = .assign → Derives .expression right value →
        Derives .expression (left ++ sign :: right) (.binary .assign target value pos)
  -- disjunction = conjunction {|| conjunction}
  | disjunct {tokens : List Token} {expr : Expr} :
      Derives .conjunction tokens expr → Derives .disjunction tokens expr
  | either {left right : List Token} {sign : Token} {first second : Expr} {pos : Pos} :
      Derives .disjunction left first → sign.kind = .or → Derives .conjunction right second →
        Derives .disjunction (left ++ sign :: right) (.binary .or first second pos)
  -- conjunction = equality [&& expression]
  | conjunct {tokens : List Token} {expr : Expr} :
      Derives (.operation .equality) tokens expr → Derives .conjunction tokens expr
  | both {left right : List Token} {sign : Token} {first second : Expr} {pos : Pos} :
      Derives (.operation .equality) left first → sign.kind = .and →
        Derives .expression right second →
          Derives .conjunction (left ++ sign :: right) (.binary .and first second pos)
  -- each tier is its operand, joined to the left with its operators
  | equality {tokens : List Token} {expr : Expr} :
      Derives (.operation .comparison) tokens expr → Derives (.operation .equality) tokens expr
  | comparison {tokens : List Token} {expr : Expr} :
      Derives (.operation .sum) tokens expr → Derives (.operation .comparison) tokens expr
  | sum {tokens : List Token} {expr : Expr} :
      Derives (.operation .product) tokens expr → Derives (.operation .sum) tokens expr
  | product {tokens : List Token} {expr : Expr} :
      Derives .unary tokens expr → Derives (.operation .product) tokens expr
  | equalities {left right : List Token} {sign : Token} {op : BinaryOp} {first second : Expr}
      {pos : Pos} :
      Derives (.operation .equality) left first → Joins .equality sign.kind op →
        Derives (.operation .comparison) right second →
          Derives (.operation .equality) (left ++ sign :: right) (.binary op first second pos)
  | comparisons {left right : List Token} {sign : Token} {op : BinaryOp} {first second : Expr}
      {pos : Pos} :
      Derives (.operation .comparison) left first → Joins .comparison sign.kind op →
        Derives (.operation .sum) right second →
          Derives (.operation .comparison) (left ++ sign :: right) (.binary op first second pos)
  | sums {left right : List Token} {sign : Token} {op : BinaryOp} {first second : Expr}
      {pos : Pos} :
      Derives (.operation .sum) left first → Joins .sum sign.kind op →
        Derives (.operation .product) right second →
          Derives (.operation .sum) (left ++ sign :: right) (.binary op first second pos)
  | products {left right : List Token} {sign : Token} {op : BinaryOp} {first second : Expr}
      {pos : Pos} :
      Derives (.operation .product) left first → Joins .product sign.kind op →
        Derives .unary right second →
          Derives (.operation .product) (left ++ sign :: right) (.binary op first second pos)
  -- unary = (! | -) unary | applied
  | signed {sign : Token} {tokens : List Token} {op : UnaryOp} {operand : Expr} {pos : Pos} :
      Signs sign.kind op → Derives .unary tokens operand →
        Derives .unary (sign :: tokens) (.unary op operand pos)
  | unsigned {tokens : List Token} {expr : Expr} :
      Derives .applied tokens expr → Derives .unary tokens expr
  -- applied = primary {( list ) | [ expression ]}
  | bare {tokens : List Token} {expr : Expr} :
      Derives .primary tokens expr → Derives .applied tokens expr
  | call {left inner : List Token} {opening closing : Token} {callee : Expr}
      {arguments : List Expr} {pos : Pos} :
      Derives .applied left callee → opening.kind = .leftParen → Derives .list inner arguments →
        closing.kind = .rightParen →
          Derives .applied (left ++ opening :: inner ++ [closing]) (.call callee arguments pos)
  | index {left inner : List Token} {opening closing : Token} {array position : Expr}
      {pos : Pos} :
      Derives .applied left array → opening.kind = .leftSquare →
        Derives .expression inner position → closing.kind = .rightSquare →
          Derives .applied (left ++ opening :: inner ++ [closing]) (.index array position pos)
  -- primary = int | float | string | identifier | ( expression ) | [ list ]
  | int {token : Token} {pos : Pos} :
      token.kind = .int → Derives .primary [token] (.int token.text pos)
  | float {token : Token} {pos : Pos} :
      token.kind = .float → Derives .primary [token] (.float token.text pos)
  | string {token : Token} {pos : Pos} :
      token.kind = .string → Derives .primary [token] (.str token.text pos)
  | name {token : Token} {pos : Pos} :
      token.kind = .identifier → Derives .primary [token] (.name token.text pos)
  | grouped {inner : List Token} {opening closing : Token} {expr : Expr} :
      opening.kind = .leftParen → Derives .expression inner expr → closing.kind = .rightParen →
        Derives .primary (opening :: inner ++ [closing]) expr
  | array {inner : List Token} {opening closing : Token} {elements : List Expr} {pos : Pos} :
      opening.kind = .leftSquare → Derives .list inner elements → closing.kind = .rightSquare →
        Derives .primary (opening :: inner ++ [closing]) (.array elements pos)
  -- list = expression {, expression}
  | item {tokens : List Token} {expr : Expr} :
      Derives .expression tokens expr → Derives .list tokens [expr]
  | items {first rest : List Token} {comma : Token} {expr : Expr} {others : List Expr} :
      Derives .expression first expr → comma.kind = .comma → Derives .list rest others →
        Derives .list (first ++ comma :: rest) (expr :: others)

theorem joins_iff {tier : Tier} {kind : Kind} {op : BinaryOp} :
    Joins tier kind op ↔ tier.operator? kind = some op := by
  constructor
  · rintro (_ | _) <;> rfl
  · intro found
    unfold Tier.operator? at found
    split at found <;> cases found <;> constructor

theorem signs_iff {kind : Kind} {op : UnaryOp} :
    Signs kind op ↔ Parser.unaryOperator? kind = some op := by
  constructor
  · rintro (_ | _) <;> rfl
  · intro found
    unfold Parser.unaryOperator? at found
    split at found <;> cases found <;> constructor

theorem Parser.Tier.height_le (tier : Tier) : tier.height ≤ 3 := by
  cases tier <;> decide

def DerivesOperand : Tier → List Token → Expr → Prop
  | .equality => Derives (.operation .comparison)
  | .comparison => Derives (.operation .sum)
  | .sum => Derives (.operation .product)
  | .product => Derives .unary

theorem DerivesOperand.operation {tier : Tier} {tokens : List Token} {expr : Expr}
    (operand : DerivesOperand tier tokens expr) : Derives (.operation tier) tokens expr := by
  cases tier with
  | equality => exact .equality operand
  | comparison => exact .comparison operand
  | sum => exact .sum operand
  | product => exact .product operand

theorem Derives.join {tier : Tier} {left right : List Token} {sign : Token} {op : BinaryOp}
    {first second : Expr} (pos : Pos) (derived : Derives (.operation tier) left first)
    (joins : Joins tier sign.kind op) (operand : DerivesOperand tier right second) :
    Derives (.operation tier) (left ++ sign :: right) (.binary op first second pos) := by
  cases tier with
  | equality => exact .equalities derived joins operand
  | comparison => exact .comparisons derived joins operand
  | sum => exact .sums derived joins operand
  | product => exact .products derived joins operand

namespace Parser.Step

variable {α β : Type} {strict laxer : Bool} {given : List Token} {first : Step α strict given}
  (next : α → (rest : List Token) → rest <:+ given →
    (strict = true → rest.length < given.length) → Step β laxer rest)

theorem andThen_of_some {value : α} (found : first.result = some value) :
    ∃ spent, (first.andThen next).result = (next value first.rest first.suffix spent).result ∧
      (first.andThen next).rest = (next value first.rest first.suffix spent).rest ∧
      (first.andThen next).issues =
        first.issues ++ (next value first.rest first.suffix spent).issues := by
  obtain ⟨result, rest, issues, suffix, spent⟩ := first
  dsimp only at found
  subst found
  exact ⟨_, rfl, rfl, rfl⟩

theorem andThen_of_none (found : first.result = none) :
    (first.andThen next).issues = first.issues := by
  obtain ⟨result, rest, issues, suffix, spent⟩ := first
  dsimp only at found
  subst found
  rfl

end Parser.Step

end Rover
