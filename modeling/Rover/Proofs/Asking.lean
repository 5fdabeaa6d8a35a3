import Rover.Proofs.Calls
import Rover.Program.Parser

/-!
The parser as a client of a source of tokens. It looks at one token at a time, takes it or leaves
it, and never goes back. A source that is only asked need not end, so the client is given fuel.
-/

namespace Rover

open Rover.Parser (Step Tier)

namespace Client

variable {α β state : Type} (answer : state → Call → Answer × state)

def bind : Client α → (α → Client β) → Client β
  | done value, next => next value
  | ask call goOn, next => ask call fun answer => (goOn answer).bind next

def exec : Client α → state → α × state
  | done value, now => (value, now)
  | ask call goOn, now => (goOn (answer now call).1).exec (answer now call).2

theorem run_eq_exec (client : Client α) (now : state) :
    client.run answer now = (client.exec answer now).1 := by
  induction client generalizing now with
  | done => rfl
  | ask call goOn ih => exact ih _ _

theorem exec_bind (client : Client α) (next : α → Client β) (now : state) :
    (client.bind next).exec answer now =
      (next (client.exec answer now).1).exec answer (client.exec answer now).2 := by
  induction client generalizing now with
  | done => rfl
  | ask call goOn ih => exact ih _ _

end Client

/-- A client that may fail, and that tells the errors it found on its way. -/
def Asking (α : Type) := Client (Option α × List Diagnostic)

namespace Asking

variable {α β : Type}

def andThen (first : Asking α) (next : α → Asking β) : Asking β :=
  Client.bind first fun found =>
    match found.1 with
    | none => .done (none, found.2)
    | some value => Client.bind (next value) fun after => .done (after.1, found.2 ++ after.2)

instance : Monad Asking where
  pure value := .done (some value, [])
  bind := andThen

def fail (issue : Diagnostic) : Asking α := .done (none, [issue])

def report (issue : Diagnostic) : Asking Unit := .done (some (), [issue])

def stuck : Asking α := .done (none, [])

def attempt (asking : Asking α) : Asking (Option α) :=
  Client.bind asking fun found => .done (some found.1, found.2)

def peek : Asking Token :=
  .ask .peek fun
    | .token token => .done (some token, [])
    | _ => .done (none, [])

def consume : Asking Token :=
  .ask .consume fun
    | .token token => .done (some token, [])
    | _ => .done (none, [])

def consumeIf (kinds : List Kind) : Asking (Option Token) :=
  .ask (.consumeIf kinds) fun
    | .tried token true => .done (some (some token), [])
    | .tried _ false => .done (some none, [])
    | _ => .done (none, [])

def refuse (token : Token) (expected : Text) : Asking α :=
  if token.kind = .illegal then do
    let _ ← consume
    fail ⟨token.text, token.pos⟩
  else fail ⟨text "expected " ++ expected ++ text ", found " ++ token.shown, token.pos⟩

def expect (kind : Kind) (context : Text) : Asking Token := do
  match ← consumeIf [kind] with
  | some token => return token
  | none => refuse (← peek) (Parser.expect.expected kind context)

def kinds : Tier → List Kind
  | .equality => [.equal, .notEqual]
  | .comparison => [.less, .lessEqual, .greater, .greaterEqual]
  | .sum => [.plus, .minus]
  | .product => [.star, .slash]

mutual

def expression : Nat → Asking Expr
  | 0 => stuck
  | fuel + 1 => do
      let left ← disjunction fuel
      match ← consumeIf [.assign] with
      | none => return left
      | some sign => return .binary .assign left (← expression fuel) sign.pos

def disjunction : Nat → Asking Expr
  | 0 => stuck
  | fuel + 1 => do disjuncts fuel (← conjunction fuel)

def disjuncts : Nat → Expr → Asking Expr
  | 0, _ => stuck
  | fuel + 1, left => do
      match ← consumeIf [.or] with
      | none => return left
      | some sign => disjuncts fuel (.binary .or left (← conjunction fuel) sign.pos)

def conjunction : Nat → Asking Expr
  | 0 => stuck
  | fuel + 1 => do
      let left ← operation fuel .equality
      match ← consumeIf [.and] with
      | none => return left
      | some sign => return .binary .and left (← expression fuel) sign.pos

def operation : Nat → Tier → Asking Expr
  | 0, _ => stuck
  | fuel + 1, tier => do operands fuel tier (← operand fuel tier)

def operands : Nat → Tier → Expr → Asking Expr
  | 0, _, _ => stuck
  | fuel + 1, tier, left => do
      match ← consumeIf (kinds tier) with
      | none => return left
      | some sign =>
          match tier.operator? sign.kind with
          | none => stuck
          | some op => operands fuel tier (.binary op left (← operand fuel tier) sign.pos)

def operand : Nat → Tier → Asking Expr
  | 0, _ => stuck
  | fuel + 1, .equality => operation fuel .comparison
  | fuel + 1, .comparison => operation fuel .sum
  | fuel + 1, .sum => operation fuel .product
  | fuel + 1, .product => unary fuel

def unary : Nat → Asking Expr
  | 0 => stuck
  | fuel + 1 => do
      match ← consumeIf [.not, .minus] with
      | none => postfixed fuel
      | some sign =>
          match Parser.unaryOperator? sign.kind with
          | none => stuck
          | some op => return .unary op (← unary fuel) sign.pos

def postfixed : Nat → Asking Expr
  | 0 => stuck
  | fuel + 1 => do
      let token ← peek
      match token.kind with
      | .int => let _ ← consume; suffixes fuel (.int token.text token.pos)
      | .float => let _ ← consume; suffixes fuel (.float token.text token.pos)
      | .string => let _ ← consume; suffixes fuel (.str token.text token.pos)
      | .identifier => let _ ← consume; suffixes fuel (.name token.text token.pos)
      | .leftParen => do
          let _ ← consume
          let inner ← expression fuel
          let _ ← expect .rightParen (text "to close parenthesis")
          suffixes fuel inner
      | .leftSquare => do
          let _ ← consume
          suffixes fuel (.array (← list fuel .rightSquare (text "array element")) token.pos)
      | _ => refuse token (text "expression")

def suffixes : Nat → Expr → Asking Expr
  | 0, _ => stuck
  | fuel + 1, base => do
      match ← consumeIf [.leftParen, .leftSquare] with
      | none => return base
      | some opening =>
          if opening.kind = .leftParen then
            suffixes fuel (.call base (← list fuel .rightParen (text "argument")) base.pos)
          else do
            let index ← expression fuel
            let _ ← expect .rightSquare (text "after index")
            suffixes fuel (.index base index opening.pos)

def list : Nat → Kind → Text → Asking (List Expr)
  | 0, _, _ => stuck
  | fuel + 1, closing, what => do
      let token ← peek
      if token.kind = closing then
        fail ⟨text "expected " ++ what ++ text ", found " ++ token.shown, token.pos⟩
      else items fuel closing what

def items : Nat → Kind → Text → Asking (List Expr)
  | 0, _, _ => stuck
  | fuel + 1, closing, what => do
      let item ← expression fuel
      match ← consumeIf [.comma] with
      | some _ => return item :: (← items fuel closing what)
      | none => do
          let _ ← expect closing (text "after " ++ what ++ text " list")
          return [item]

end

/-- Skips to where a statement may begin or a block may end. -/
def synchronize : Nat → Asking Unit
  | 0 => stuck
  | fuel + 1 => do
      let token ← peek
      match token.kind with
      | .eof | .rightBrace | .ifWord | .whileWord | .varWord | .constWord => return ()
      | .semicolon => let _ ← consume; return ()
      | .illegal => do
          let _ ← consume
          report ⟨token.text, token.pos⟩
          synchronize fuel
      | _ => let _ ← consume; synchronize fuel

def stepOver (start : Pos) : Asking Unit := do
  let token ← peek
  if token.kind ≠ .eof ∧ token.pos = start then
    let _ ← consume
    return ()
  else return ()

def definition (fuel : Nat) : Asking Stmt := do
  let keyword ← consume
  let constant := keyword.kind = .constWord
  let what := if constant then text "constant" else text "variable"
  let name ← expect .identifier (text "after " ++ keyword.kind.name)
  let _ ← expect .assign (text "after " ++ what ++ text " name")
  let initial ← expression fuel
  let _ ← expect .semicolon (text "after definition")
  return .define name.text name.pos initial constant keyword.pos

def simple (fuel : Nat) : Asking Stmt := do
  let start ← peek
  let expr ← expression fuel
  let _ ← expect .semicolon (text "after expression")
  return .eval expr start.pos

mutual

def statements : Nat → Kind → Asking (List Stmt)
  | 0, _ => stuck
  | fuel + 1, closing => do
      let before ← peek
      if before.kind = closing ∨ before.kind = .eof then return []
      else
        match ← attempt (statement fuel) with
        | some stmt => return stmt :: (← statements fuel closing)
        | none => do
            synchronize fuel
            stepOver before.pos
            statements fuel closing

def statement : Nat → Asking Stmt
  | 0 => stuck
  | fuel + 1 => do
      let token ← peek
      match token.kind with
      | .ifWord => conditional fuel
      | .whileWord => do
          let _ ← consume
          let condition ← expression fuel
          let body ← block fuel
          return .loop condition body.1 body.2 token.pos
      | .leftBrace => do
          let body ← block fuel
          return .block body.1 body.2
      | .varWord | .constWord => definition fuel
      | _ => simple fuel

def conditional : Nat → Asking Stmt
  | 0 => stuck
  | fuel + 1 => do
      let keyword ← consume
      let condition ← expression fuel
      let body ← block fuel
      match ← consumeIf [.elseWord] with
      | none => return .cond condition body.1 body.2 .absent keyword.pos
      | some _ => return .cond condition body.1 body.2 (← alternative fuel) keyword.pos

def alternative : Nat → Asking Stmt
  | 0 => stuck
  | fuel + 1 => do
      let token ← peek
      if token.kind = .ifWord then conditional fuel
      else do
        let body ← block fuel
        return .block body.1 body.2

def block : Nat → Asking (List Stmt × Pos)
  | 0 => stuck
  | fuel + 1 => do
      let opening ← expect .leftBrace (text "to open block")
      let body ← statements fuel .rightBrace
      let _ ← expect .rightBrace (text "to close block")
      return (body, opening.pos)

end

def outcome (start : Pos) (body : Option (List Stmt) × List Diagnostic) :
    Except (List Diagnostic) Program :=
  match body.2 with
  | [] => .ok ⟨body.1.getD [], start⟩
  | issues => .error issues

def program (fuel : Nat) : Client (Except (List Diagnostic) Program) :=
  Client.bind peek fun start =>
    Client.bind (statements fuel .eof) fun body =>
      .done (outcome ((start.1.map (·.pos)).getD .unknown) body)

section Meets

variable {first : Asking α} {cursor after : Cursor} {value : α} {issues : List Diagnostic}

def meets (asking : Asking α) (cursor : Cursor) : (Option α × List Diagnostic) × Cursor :=
  Client.exec Cursor.answer asking cursor

theorem meets_bind_of_none (found : first.meets cursor = ((none, issues), after))
    (next : α → Asking β) : (first >>= next).meets cursor = ((none, issues), after) := by
  refine (Client.exec_bind Cursor.answer first _ cursor).trans ?_
  rw [show Client.exec Cursor.answer first cursor = _ from found]
  rfl

theorem meets_bind_of_some (found : first.meets cursor = ((some value, issues), after))
    (next : α → Asking β) :
    (first >>= next).meets cursor =
      ((((next value).meets after).1.1, issues ++ ((next value).meets after).1.2),
        ((next value).meets after).2) := by
  refine (Client.exec_bind Cursor.answer first _ cursor).trans ?_
  rw [show Client.exec Cursor.answer first cursor = _ from found]
  exact Client.exec_bind Cursor.answer (next value) _ after

theorem meets_bind_silent (found : first.meets cursor = ((some value, []), after))
    (next : α → Asking β) : (first >>= next).meets cursor = (next value).meets after :=
  meets_bind_of_some found next

theorem meets_attempt (asking : Asking α) (cursor : Cursor) :
    asking.attempt.meets cursor =
      ((some (asking.meets cursor).1.1, (asking.meets cursor).1.2), (asking.meets cursor).2) :=
  Client.exec_bind Cursor.answer asking _ cursor

theorem meets_peek (cursor : Cursor) : peek.meets cursor = ((some cursor.current, []), cursor) :=
  rfl

theorem meets_consume (cursor : Cursor) :
    consume.meets cursor = ((some cursor.current, []), cursor.moved) :=
  rfl

theorem meets_consumeIf_taken {kinds : List Kind} (wanted : cursor.current.kind ∈ kinds) :
    (consumeIf kinds).meets cursor = ((some (some cursor.current), []), cursor.moved) := by
  unfold meets consumeIf
  rw [Client.exec, Cursor.answer, if_pos wanted]
  rfl

theorem meets_consumeIf_left {kinds : List Kind} (other : cursor.current.kind ∉ kinds) :
    (consumeIf kinds).meets cursor = ((some none, []), cursor) := by
  unfold meets consumeIf
  rw [Client.exec, Cursor.answer, if_neg other]
  rfl

end Meets

end Asking

end Rover
