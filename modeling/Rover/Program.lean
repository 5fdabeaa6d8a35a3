import Rover.Token

/-!
A program is a list of statements over expressions. Every node knows where it starts; literals keep
their source text and are read as numbers when they are evaluated. Trees built by hand may leave a
node out, so both expressions and statements have an absent form.
-/

namespace Rover

inductive UnaryOp where
  | negate
  | not
  | other (name : Text)
  deriving DecidableEq, Repr

namespace UnaryOp

def name : UnaryOp → Text
  | negate => text "-"
  | not => text "!"
  | other name => name

def ofName (name : Text) : UnaryOp :=
  ([negate, not].find? (·.name == name)).getD (other name)

end UnaryOp

inductive BinaryOp where
  | add
  | subtract
  | multiply
  | divide
  | equal
  | notEqual
  | less
  | lessEqual
  | greater
  | greaterEqual
  | and
  | or
  | assign
  | other (name : Text)
  deriving DecidableEq, Repr

namespace BinaryOp

def name : BinaryOp → Text
  | add => text "+"
  | subtract => text "-"
  | multiply => text "*"
  | divide => text "/"
  | equal => text "=="
  | notEqual => text "!="
  | less => text "<"
  | lessEqual => text "<="
  | greater => text ">"
  | greaterEqual => text ">="
  | and => text "&&"
  | or => text "||"
  | assign => text "="
  | other name => name

def known : List BinaryOp :=
  [add, subtract, multiply, divide, equal, notEqual, less, lessEqual, greater, greaterEqual, and,
    or, assign]

def ofName (name : Text) : BinaryOp :=
  (known.find? (·.name == name)).getD (other name)

end BinaryOp

inductive Expr where
  | absent
  | int (text : Text) (pos : Pos)
  | float (text : Text) (pos : Pos)
  | str (value : Text) (pos : Pos)
  | name (name : Text) (pos : Pos)
  | array (elements : List Expr) (pos : Pos)
  | unary (op : UnaryOp) (operand : Expr) (pos : Pos)
  | binary (op : BinaryOp) (left right : Expr) (pos : Pos)
  | call (callee : Expr) (arguments : List Expr) (pos : Pos)
  | index (array index : Expr) (pos : Pos)
  deriving Repr, Inhabited

def Expr.pos : Expr → Pos
  | absent => .unknown
  | int _ pos | float _ pos | str _ pos | name _ pos | array _ pos | unary _ _ pos
  | binary _ _ _ pos | call _ _ pos | index _ _ pos => pos

/-- A conditional without an else branch has an absent one. -/
inductive Stmt where
  | absent
  | eval (expr : Expr) (pos : Pos)
  | block (body : List Stmt) (pos : Pos)
  | define (name : Text) (namePos : Pos) (initial : Expr) (constant : Bool) (pos : Pos)
  | cond (condition : Expr) (body : List Stmt) (bodyPos : Pos) (otherwise : Stmt) (pos : Pos)
  | loop (condition : Expr) (body : List Stmt) (bodyPos : Pos) (pos : Pos)
  deriving Repr, Inhabited

structure Program where
  body : List Stmt
  pos : Pos
  deriving Repr

end Rover
