import Rover.Token.Lexer

/-!
What a lexer can be asked and what it answers, and what a cursor over a list of tokens answers. A
client makes one call after the other, each as the answers before it tell.
-/

namespace Rover

inductive Call where
  | peek
  | consume
  | consumeIf (kinds : List Kind)
  | all

inductive Answer where
  | token (token : Token)
  | tried (token : Token) (taken : Bool)
  | all (tokens : List Token)

/-- A token that was not taken is answered with one that has no place. -/
def Answer.attempt : Option Token → Answer
  | some found => .tried found true
  | none => .tried (.finish .unknown) false

def Lexer.answer (lexer : Lexer) : Call → Answer × Lexer
  | .peek => lexer.peek.map .token id
  | .consume => lexer.consume.map .token id
  | .consumeIf kinds => (lexer.consumeIf kinds).map .attempt id
  | .all => lexer.drain.map .all id

/-- A place in a list of tokens, as what is left of the list. -/
structure Cursor where
  left : List Token

namespace Cursor

variable (cursor : Cursor)

def current : Token := cursor.left.headD (.finish .unknown)

/-- The end of a source is not passed. -/
def moved : Cursor := if cursor.current.kind = .eof then cursor else ⟨cursor.left.tail⟩

def answer : Call → Answer × Cursor
  | .peek => (.token cursor.current, cursor)
  | .consume => (.token cursor.current, cursor.moved)
  | .consumeIf kinds =>
      if cursor.current.kind ∈ kinds then (.tried cursor.current true, cursor.moved)
      else (.tried (.finish .unknown) false, cursor)
  | .all => (.all cursor.left, ⟨cursor.left.drop (cursor.left.length - 1)⟩)

theorem answer_ended {final : Token} (ends : final.kind = .eof) (call : Call) :
    (answer ⟨[final]⟩ call).2 = ⟨[final]⟩ := by
  have stays : moved ⟨[final]⟩ = ⟨[final]⟩ := if_pos ends
  cases call with
  | peek => rfl
  | consume => exact stays
  | consumeIf kinds =>
      rw [answer]
      split
      · exact stays
      · rfl
  | all => rfl

end Cursor

/-- What a client does next: it makes a call and goes on as it likes with the answer. -/
inductive Client (result : Type) where
  | done (value : result)
  | ask (call : Call) (goOn : Answer → Client result)

section

variable {state result : Type} (answer : state → Call → Answer × state)

def Client.run : Client result → state → result
  | done value, _ => value
  | ask call goOn, now => (goOn (answer now call).1).run (answer now call).2

/-- The answers to calls that are made one after the other. -/
def answers : List Call → state → List Answer
  | [], _ => []
  | call :: calls, now => (answer now call).1 :: answers calls (answer now call).2

end

end Rover
