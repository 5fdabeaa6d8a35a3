import Rover.Proofs.Grammar

/-!
Where the nodes of a program stand. Each carries the place of one of its own tokens, and a call that
of its callee; parentheses leave no node behind. How tightly operators bind plays no part in this,
so all expressions are of one form here.
-/

namespace Rover

inductive Part where
  | expression
  | list
  | statement
  | block
  | statements
  deriving DecidableEq, Repr

abbrev Part.Tree : Part → Type
  | expression => Expr
  | list => List Expr
  | statement => Stmt
  | block => List Stmt × Pos
  | statements => List Stmt

/-- The tokens make up a part of a program, and its nodes stand where they should. -/
inductive Stands : (part : Part) → List Token → part.Tree → Prop
  -- literals, names and arrays stand at their first token
  | int {token : Token} :
      token.kind = .int → Stands .expression [token] (.int token.text token.pos)
  | float {token : Token} :
      token.kind = .float → Stands .expression [token] (.float token.text token.pos)
  | string {token : Token} :
      token.kind = .string → Stands .expression [token] (.str token.text token.pos)
  | name {token : Token} :
      token.kind = .identifier → Stands .expression [token] (.name token.text token.pos)
  | array {opening closing : Token} {inner : List Token} {elements : List Expr} :
      opening.kind = .leftSquare → Stands .list inner elements → closing.kind = .rightSquare →
        Stands .expression (opening :: inner ++ [closing]) (.array elements opening.pos)
  | grouped {opening closing : Token} {inner : List Token} {expr : Expr} :
      opening.kind = .leftParen → Stands .expression inner expr → closing.kind = .rightParen →
        Stands .expression (opening :: inner ++ [closing]) expr
  -- unary and binary expressions stand at their operator
  | unary {sign : Token} {tokens : List Token} {op : UnaryOp} {operand : Expr} :
      sign.kind.name = op.name → Stands .expression tokens operand →
        Stands .expression (sign :: tokens) (.unary op operand sign.pos)
  | binary {sign : Token} {first second : List Token} {op : BinaryOp} {left right : Expr} :
      Stands .expression first left → sign.kind.name = op.name → Stands .expression second right →
        Stands .expression (first ++ sign :: second) (.binary op left right sign.pos)
  -- a call stands where its callee does, an index expression at its bracket
  | call {opening closing : Token} {first inner : List Token} {callee : Expr}
      {arguments : List Expr} :
      Stands .expression first callee → opening.kind = .leftParen → Stands .list inner arguments →
        closing.kind = .rightParen →
          Stands .expression (first ++ opening :: inner ++ [closing])
            (.call callee arguments callee.pos)
  | index {opening closing : Token} {first inner : List Token} {array index : Expr} :
      Stands .expression first array → opening.kind = .leftSquare →
        Stands .expression inner index → closing.kind = .rightSquare →
          Stands .expression (first ++ opening :: inner ++ [closing])
            (.index array index opening.pos)
  | item {tokens : List Token} {expr : Expr} :
      Stands .expression tokens expr → Stands .list tokens [expr]
  | items {comma : Token} {first rest : List Token} {expr : Expr} {others : List Expr} :
      Stands .expression first expr → comma.kind = .comma → Stands .list rest others →
        Stands .list (first ++ comma :: rest) (expr :: others)
  -- statements and blocks stand at their first token, a defined name at its own
  | eval {first final : Token} {tokens : List Token} {expr : Expr} :
      Stands .expression (first :: tokens) expr → final.kind = .semicolon →
        Stands .statement (first :: tokens ++ [final]) (.eval expr first.pos)
  | define {word name sign final : Token} {tokens : List Token} {initial : Expr}
      {constant : Bool} :
      word.kind = (if constant then .constWord else .varWord) → name.kind = .identifier →
        sign.kind = .assign → Stands .expression tokens initial → final.kind = .semicolon →
          Stands .statement (word :: name :: sign :: tokens ++ [final])
            (.define name.text name.pos initial constant word.pos)
  | nested {tokens : List Token} {body : List Stmt × Pos} :
      Stands .block tokens body → Stands .statement tokens (.block body.1 body.2)
  | loop {word : Token} {test inner : List Token} {condition : Expr} {body : List Stmt × Pos} :
      word.kind = .whileWord → Stands .expression test condition → Stands .block inner body →
        Stands .statement (word :: test ++ inner) (.loop condition body.1 body.2 word.pos)
  | single {word : Token} {test inner : List Token} {condition : Expr} {body : List Stmt × Pos} :
      word.kind = .ifWord → Stands .expression test condition → Stands .block inner body →
        Stands .statement (word :: test ++ inner) (.cond condition body.1 body.2 .absent word.pos)
  | double {word other : Token} {test inner last : List Token} {condition : Expr}
      {body : List Stmt × Pos} {otherwise : Stmt} :
      word.kind = .ifWord → Stands .expression test condition → Stands .block inner body →
        other.kind = .elseWord → Stands .statement last otherwise →
          Stands .statement (word :: test ++ inner ++ other :: last)
            (.cond condition body.1 body.2 otherwise word.pos)
  | braced {opening closing : Token} {tokens : List Token} {body : List Stmt} :
      opening.kind = .leftBrace → Stands .statements tokens body → closing.kind = .rightBrace →
        Stands .block (opening :: tokens ++ [closing]) (body, opening.pos)
  | none : Stands .statements [] []
  | more {first rest : List Token} {stmt : Stmt} {others : List Stmt} :
      Stands .statement first stmt → Stands .statements rest others →
        Stands .statements (first ++ rest) (stmt :: others)

theorem Stands.ne_nil {used : List Token} {expr : Expr} (stands : Stands .expression used expr) :
    used ≠ [] := by
  cases stands <;> simp

theorem Joins.name {tier : Parser.Tier} {kind : Kind} {op : BinaryOp} (joins : Joins tier kind op) :
    kind.name = op.name := by
  cases joins <;> rfl

theorem Signs.name {kind : Kind} {op : UnaryOp} (signs : Signs kind op) : kind.name = op.name := by
  cases signs <;> rfl

/-- Tokens that derive a tree, and at which its nodes stand. -/
structure Placed {α : Type} (derives stands : List Token → α → Prop) (used : List Token)
    (tree : α) : Prop where
  derived : derives used tree
  stands : stands used tree

end Rover
