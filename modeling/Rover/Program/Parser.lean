import Rover.Diagnostic
import Rover.Program
import Rover.Token.Lexer

/-!
The parser reads a program from a list of tokens by recursive descent. A statement that fails is
skipped up to a place where another may start, so that the errors of later statements are reported
too; a program is returned only if nothing failed.

What a step leaves unread is always a tail of what it was given, and a step that succeeds has used
up at least one token. Both facts are part of the result of a step and make the descent well
founded.
-/

namespace Rover
namespace Parser

/-- A step yields a result or fails; in both cases it says what it left unread and which errors it
found. The flag tells whether success uses up a token. -/
structure Step (α : Type) (strict : Bool) (given : List Token) where
  result : Option α
  rest : List Token
  issues : List Diagnostic
  suffix : rest <:+ given
  spent : result.isSome → strict = true → rest.length < given.length

namespace Step

variable {α β : Type} {strict laxer : Bool} {given : List Token}

theorem length_le (step : Step α strict given) : step.rest.length ≤ given.length :=
  step.suffix.length_le

def done (value : α) (given : List Token) : Step α false given where
  result := some value
  rest := given
  issues := []
  suffix := List.suffix_refl given
  spent := nofun

def fail (issue : Diagnostic) (given : List Token) : Step α strict given where
  result := none
  rest := given
  issues := [issue]
  suffix := List.suffix_refl given
  spent := nofun

def take (value : α) (token : Token) (rest : List Token) : Step α strict (token :: rest) where
  result := some value
  rest := rest
  issues := []
  suffix := List.suffix_cons token rest
  spent := fun _ _ => Nat.lt_succ_self rest.length

/-- A step on what follows the first token. -/
def after (token : Token) {rest : List Token} (step : Step α laxer rest) :
    Step α strict (token :: rest) where
  result := step.result
  rest := step.rest
  issues := step.issues
  suffix := step.suffix.trans (List.suffix_cons token rest)
  spent := fun _ _ => Nat.lt_succ_of_le step.length_le

/-- A second step on what a successful first one left. -/
def andThen (first : Step α strict given)
    (next : α → (rest : List Token) → rest <:+ given →
      (strict = true → rest.length < given.length) → Step β laxer rest) :
    Step β strict given :=
  match found : first.result with
  | none => ⟨none, first.rest, first.issues, first.suffix, nofun⟩
  | some value =>
      let second := next value first.rest first.suffix (first.spent (by simp [found]))
      { result := second.result
        rest := second.rest
        issues := first.issues ++ second.issues
        suffix := second.suffix.trans first.suffix
        spent := fun _ used =>
          Nat.lt_of_le_of_lt second.length_le (first.spent (by simp [found]) used) }

def map (convert : α → β) (step : Step α strict given) : Step β strict given where
  result := step.result.map convert
  rest := step.rest
  issues := step.issues
  suffix := step.suffix
  spent := by simpa using step.spent

end Step

def peek (finish : Pos) (given : List Token) : Token :=
  given.headD (.finish finish)

/-- Refuses the next token. An illegal one is used up and reports its own message. -/
def refuse {α : Type} {strict : Bool} (finish : Pos) (expected : Text) :
    (given : List Token) → Step α strict given
  | [] => .fail ⟨text "expected " ++ expected ++ text ", found " ++ (Token.finish finish).shown,
      finish⟩ []
  | token :: rest =>
      if token.kind = .illegal then
        { result := none
          rest := rest
          issues := [⟨token.text, token.pos⟩]
          suffix := List.suffix_cons token rest
          spent := nofun }
      else
        .fail ⟨text "expected " ++ expected ++ text ", found " ++ token.shown, token.pos⟩
          (token :: rest)

def expect (finish : Pos) (kind : Kind) (context : Text) :
    (given : List Token) → Step Token true given
  | [] => refuse finish (expected kind context) []
  | token :: rest =>
      if token.kind = kind then .take token token rest
      else refuse finish (expected kind context) (token :: rest)
where
  /-- How a kind that is missing is named. -/
  expected (kind : Kind) (context : Text) : Text :=
    (if kind = .identifier then text "identifier" else text "'" ++ kind.name ++ text "'")
      ++ text " " ++ context

/-- Binary operators of one tier group to the left and bind looser than those of the next. -/
inductive Tier where
  | equality
  | comparison
  | sum
  | product
  deriving DecidableEq, Repr

namespace Tier

def operator? : Tier → Kind → Option BinaryOp
  | equality, .equal => some .equal
  | equality, .notEqual => some .notEqual
  | comparison, .less => some .less
  | comparison, .lessEqual => some .lessEqual
  | comparison, .greater => some .greater
  | comparison, .greaterEqual => some .greaterEqual
  | sum, .plus => some .add
  | sum, .minus => some .subtract
  | product, .star => some .multiply
  | product, .slash => some .divide
  | _, _ => none

def height : Tier → Nat
  | equality => 3
  | comparison => 2
  | sum => 1
  | product => 0

end Tier

def unaryOperator? : Kind → Option UnaryOp
  | .not => some .not
  | .minus => some .negate
  | _ => none

mutual

/-- Assignment groups to the right; whether its left side can be assigned to is decided when it is
evaluated. -/
def expression (finish : Pos) (given : List Token) : Step Expr true given :=
  (disjunction finish given).andThen fun left rest _ _ =>
    match rest with
    | [] => .done left []
    | token :: more =>
        if token.kind = .assign then
          .after token ((expression finish more).map fun right =>
            .binary .assign left right token.pos)
        else .done left (token :: more)
termination_by 16 * given.length + 12
decreasing_by all_goals (simp_all; try omega)

def disjunction (finish : Pos) (given : List Token) : Step Expr true given :=
  (conjunction finish given).andThen fun left rest _ _ => disjuncts finish left rest
termination_by 16 * given.length + 11
decreasing_by all_goals (simp_all; try omega)

/-- The further operands of `||`. -/
def disjuncts (finish : Pos) (left : Expr) (given : List Token) : Step Expr false given :=
  match given with
  | [] => .done left []
  | token :: rest =>
      if token.kind = .or then
        .after token ((conjunction finish rest).andThen fun right more _ _ =>
          disjuncts finish (.binary .or left right token.pos) more)
      else .done left (token :: rest)
termination_by 16 * given.length
decreasing_by all_goals (simp_all; try omega)

/-- The right operand of `&&` is a whole expression. -/
def conjunction (finish : Pos) (given : List Token) : Step Expr true given :=
  (operation finish .equality given).andThen fun left rest _ _ =>
    match rest with
    | [] => .done left []
    | token :: more =>
        if token.kind = .and then
          .after token ((expression finish more).map fun right =>
            .binary .and left right token.pos)
        else .done left (token :: more)
termination_by 16 * given.length + 10
decreasing_by all_goals (simp_all [Tier.height]; try omega)

def operation (finish : Pos) (tier : Tier) (given : List Token) : Step Expr true given :=
  (operand finish tier given).andThen fun left rest _ _ => operands finish tier left rest
termination_by 16 * given.length + 2 * tier.height + 3
decreasing_by all_goals (simp_all; try omega)

/-- The further operands of the operators of a tier. -/
def operands (finish : Pos) (tier : Tier) (left : Expr) (given : List Token) :
    Step Expr false given :=
  match given with
  | [] => .done left []
  | token :: rest =>
      match tier.operator? token.kind with
      | some op =>
          .after token ((operand finish tier rest).andThen fun right more _ _ =>
            operands finish tier (.binary op left right token.pos) more)
      | none => .done left (token :: rest)
termination_by 16 * given.length
decreasing_by all_goals (cases tier <;> simp_all [Tier.height] <;> omega)

def operand (finish : Pos) (tier : Tier) (given : List Token) : Step Expr true given :=
  match tier with
  | .equality => operation finish .comparison given
  | .comparison => operation finish .sum given
  | .sum => operation finish .product given
  | .product => unary finish given
termination_by 16 * given.length + 2 * tier.height + 2
decreasing_by all_goals simp [Tier.height]

def unary (finish : Pos) (given : List Token) : Step Expr true given :=
  match given with
  | [] => postfixed finish []
  | token :: rest =>
      match unaryOperator? token.kind with
      | some op => .after token ((unary finish rest).map fun operand => .unary op operand token.pos)
      | none => postfixed finish (token :: rest)
termination_by 16 * given.length + 1
decreasing_by all_goals (simp_all; try omega)

def postfixed (finish : Pos) (given : List Token) : Step Expr true given :=
  match given with
  | [] => refuse finish (text "expression") []
  | token :: rest =>
      match token.kind with
      | .int => .after token (suffixes finish (.int token.text token.pos) rest)
      | .float => .after token (suffixes finish (.float token.text token.pos) rest)
      | .string => .after token (suffixes finish (.str token.text token.pos) rest)
      | .identifier => .after token (suffixes finish (.name token.text token.pos) rest)
      | .leftParen =>
          .after token ((expression finish rest).andThen fun inner more _ _ =>
            (expect finish .rightParen (text "to close parenthesis") more).andThen
              fun _ left _ _ => suffixes finish inner left)
      | .leftSquare =>
          .after token ((list finish .rightSquare (text "array element") rest).andThen
            fun elements more _ _ => suffixes finish (.array elements token.pos) more)
      | _ => refuse finish (text "expression") (token :: rest)
termination_by 16 * given.length
decreasing_by all_goals (simp_all; try omega)

/-- The calls and indices that follow a base. A call starts where its callee does. -/
def suffixes (finish : Pos) (base : Expr) (given : List Token) : Step Expr false given :=
  match given with
  | [] => .done base []
  | token :: rest =>
      match token.kind with
      | .leftParen =>
          .after token ((list finish .rightParen (text "argument") rest).andThen
            fun arguments more _ _ => suffixes finish (.call base arguments base.pos) more)
      | .leftSquare =>
          .after token ((expression finish rest).andThen fun index more _ _ =>
            (expect finish .rightSquare (text "after index") more).andThen
              fun _ left _ _ => suffixes finish (.index base index token.pos) left)
      | _ => .done base (token :: rest)
termination_by 16 * given.length
decreasing_by all_goals (simp_all; try omega)

def list (finish : Pos) (closing : Kind) (what : Text) (given : List Token) :
    Step (List Expr) true given :=
  if (peek finish given).kind = closing then
    .fail ⟨text "expected " ++ what ++ text ", found " ++ (peek finish given).shown,
      (peek finish given).pos⟩ given
  else items finish closing what given
termination_by 16 * given.length + 14
decreasing_by all_goals (simp_all; try omega)

def items (finish : Pos) (closing : Kind) (what : Text) (given : List Token) :
    Step (List Expr) true given :=
  (expression finish given).andThen fun item rest _ _ =>
    match rest with
    | token :: more =>
        if token.kind = .comma then
          .after token ((items finish closing what more).map (item :: ·))
        else
          (expect finish closing (text "after " ++ what ++ text " list") (token :: more)).map
            fun _ => [item]
    | [] => (expect finish closing (text "after " ++ what ++ text " list") []).map fun _ => [item]
termination_by 16 * given.length + 13
decreasing_by all_goals (simp_all; try omega)

end

/-- After a failure the parser skips to the next place where a statement may start or a block may
end. Illegal tokens on the way are still reported. -/
def recover : List Token → List Token × List Diagnostic
  | [] => ([], [])
  | token :: rest =>
      match token.kind with
      | .eof | .rightBrace | .ifWord | .whileWord | .varWord | .constWord => (token :: rest, [])
      | .semicolon => (rest, [])
      | .illegal => (recover rest).map id (⟨token.text, token.pos⟩ :: ·)
      | _ => recover rest

theorem recover_suffix (given : List Token) : (recover given).1 <:+ given := by
  fun_induction recover given with
  | case1 => exact List.suffix_refl _
  | case9 token rest _ ih => exact ih.trans (List.suffix_cons token rest)
  | case10 token rest => exact List.IsSuffix.trans (by assumption) (List.suffix_cons token rest)
  | _ => simp [List.suffix_cons]

/-- Steps over the first token if it stands where the failed statement started, as a brace that
closes nothing does. -/
def stepOver (start : Pos) : List Token → List Token
  | [] => []
  | token :: rest => if token.kind ≠ .eof ∧ token.pos = start then rest else token :: rest

theorem stepOver_suffix (start : Pos) (given : List Token) : stepOver start given <:+ given := by
  unfold stepOver
  split
  · exact List.suffix_refl _
  · split
    · exact List.suffix_cons _ _
    · exact List.suffix_refl _

/-- Recovery always uses up a token. -/
theorem length_stepOver_recover_lt {token : Token} {rest left : List Token}
    (more : token.kind ≠ .eof) (suffix : left <:+ token :: rest) :
    (stepOver token.pos (recover left).1).length < (token :: rest).length := by
  have recovered := (recover_suffix left).trans suffix
  have stepped := stepOver_suffix token.pos (recover left).1
  rcases Nat.lt_or_ge (recover left).1.length (token :: rest).length with shorter | whole
  · exact Nat.lt_of_le_of_lt stepped.length_le shorter
  · have same := recovered.eq_of_length_le whole
    rw [same]
    simp [stepOver, more]

/-- What follows the keyword of a definition. -/
def definition (finish : Pos) (keyword : Token) (given : List Token) : Step Stmt true given :=
  let constant := keyword.kind = .constWord
  let what := if constant then text "constant" else text "variable"
  (expect finish .identifier (text "after " ++ keyword.kind.name) given).andThen
    fun name afterName _ _ =>
      (expect finish .assign (text "after " ++ what ++ text " name") afterName).andThen
        fun _ afterSign _ _ =>
          (expression finish afterSign).andThen fun initial rest _ _ =>
            (expect finish .semicolon (text "after definition") rest).map fun _ =>
              .define name.text name.pos initial constant keyword.pos

def simple (finish : Pos) (given : List Token) : Step Stmt true given :=
  (expression finish given).andThen fun expr rest _ _ =>
    (expect finish .semicolon (text "after expression") rest).map fun _ =>
      .eval expr (peek finish given).pos

mutual

/-- The statements up to a closing token or the end of the source. Those that fail are left out. -/
def statements (finish : Pos) (closing : Kind) (given : List Token) :
    Step (List Stmt) false given :=
  match given with
  | [] => .done [] []
  | token :: rest =>
      if stop : token.kind = closing ∨ token.kind = .eof then .done [] (token :: rest)
      else
        match statement finish (token :: rest) with
        | ⟨some stmt, left, issues, suffix, spent⟩ =>
            have := spent rfl rfl
            let others := statements finish closing left
            { result := others.result.map (stmt :: ·)
              rest := others.rest
              issues := issues ++ others.issues
              suffix := others.suffix.trans suffix
              spent := nofun }
        | ⟨none, left, issues, suffix, _⟩ =>
            have := length_stepOver_recover_lt (fun final => stop (.inr final)) suffix
            let others := statements finish closing (stepOver token.pos (recover left).1)
            { result := others.result
              rest := others.rest
              issues := issues ++ (recover left).2 ++ others.issues
              suffix := others.suffix.trans ((stepOver_suffix _ _).trans
                ((recover_suffix _).trans suffix))
              spent := nofun }
termination_by 16 * given.length + 3
decreasing_by all_goals (simp only [List.length_cons] at *; omega)

def statement (finish : Pos) (given : List Token) : Step Stmt true given :=
  match given with
  | [] => simple finish []
  | token :: rest =>
      match token.kind with
      | .ifWord => .after token (conditional finish token.pos rest)
      | .whileWord =>
          .after token ((expression finish rest).andThen fun condition more _ _ =>
            (block finish more).map fun body => .loop condition body.1 body.2 token.pos)
      | .leftBrace => (block finish (token :: rest)).map fun body => .block body.1 body.2
      | .varWord | .constWord => .after token (definition finish token rest)
      | _ => simple finish (token :: rest)
termination_by 16 * given.length + 2
decreasing_by all_goals (simp_all; try omega)

/-- What follows the keyword of a conditional. -/
def conditional (finish : Pos) (start : Pos) (given : List Token) : Step Stmt true given :=
  (expression finish given).andThen fun condition rest _ _ =>
    (block finish rest).andThen fun body more _ _ =>
      match more with
      | [] => .done (.cond condition body.1 body.2 .absent start) []
      | token :: left =>
          if token.kind = .elseWord then
            .after token ((alternative finish left).map fun otherwise =>
              .cond condition body.1 body.2 otherwise start)
          else .done (.cond condition body.1 body.2 .absent start) (token :: left)
termination_by 16 * given.length + 2
decreasing_by all_goals (simp_all; try omega)

/-- What follows `else`: another conditional or a block. -/
def alternative (finish : Pos) (given : List Token) : Step Stmt true given :=
  match given with
  | [] => (block finish []).map fun body => .block body.1 body.2
  | token :: rest =>
      if token.kind = .ifWord then .after token (conditional finish token.pos rest)
      else (block finish (token :: rest)).map fun body => .block body.1 body.2
termination_by 16 * given.length + 1
decreasing_by all_goals (simp_all; try omega)

/-- A block and the place of its opening brace. Failures inside stay inside, and its closing brace
still matches, as long as recovery goes past no opening brace. -/
def block (finish : Pos) (given : List Token) : Step (List Stmt × Pos) true given :=
  (expect finish .leftBrace (text "to open block") given).andThen fun opening rest _ _ =>
    (statements finish .rightBrace rest).andThen fun body more _ _ =>
      (expect finish .rightBrace (text "to close block") more).map fun _ => (body, opening.pos)
termination_by 16 * given.length
decreasing_by all_goals (simp_all; try omega)

end

/-- The program that the tokens spell, or all errors. The source ends with the last token. -/
def program (finish : Pos) (given : List Token) : Except (List Diagnostic) Program :=
  let step := statements finish .eof given
  match step.issues with
  | [] => .ok ⟨step.result.getD [], (peek finish given).pos⟩
  | issues => .error issues

end Parser

/-- The program that a token list spells; its last token is the end of the source. -/
def parseTokens (tokens : List Token) : Except (List Diagnostic) Program :=
  Parser.program ((tokens.getLast?.map (·.pos)).getD .start) tokens.dropLast

/-- The program that a source text spells, or all its syntax errors. -/
def parse (source : Text) : Except (List Diagnostic) Program :=
  parseTokens (tokens source)

end Rover
