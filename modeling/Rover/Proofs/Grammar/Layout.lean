import Mathlib.Data.List.Forall2
import Rover.Proofs.Grammar.Acceptance
import Rover.Proofs.Grammar.Spelled
import Rover.Proofs.Lexing.Partition

/-!
Parsing does not depend on layout. A step of the parser passes the places of tokens on and looks at
them only where it steps over a token that stands where the failed statement started, so token lists
that differ in places alone are read alike, errors included, as long as two tokens of one list stand
at one place exactly when those of the other do. In a source no two tokens stand at one place.
-/

namespace Rover

open Rover.Parser

section Alike

variable (places : Pos → Pos → Prop)

structure Token.Alike (token other : Token) : Prop where
  kind : token.kind = other.kind
  text : token.text = other.text
  pos : places token.pos other.pos

structure Diagnostic.Alike (issue other : Diagnostic) : Prop where
  message : issue.message = other.message
  pos : places issue.pos other.pos

inductive Expr.Alike : Expr → Expr → Prop
  | int {text : Text} {pos pos' : Pos} : places pos pos' → Alike (.int text pos) (.int text pos')
  | float {text : Text} {pos pos' : Pos} :
      places pos pos' → Alike (.float text pos) (.float text pos')
  | str {value : Text} {pos pos' : Pos} :
      places pos pos' → Alike (.str value pos) (.str value pos')
  | name {name : Text} {pos pos' : Pos} :
      places pos pos' → Alike (.name name pos) (.name name pos')
  | array {elements elements' : List Expr} {pos pos' : Pos} :
      List.Forall₂ Alike elements elements' → places pos pos' →
        Alike (.array elements pos) (.array elements' pos')
  | unary {op : UnaryOp} {operand operand' : Expr} {pos pos' : Pos} :
      Alike operand operand' → places pos pos' →
        Alike (.unary op operand pos) (.unary op operand' pos')
  | binary {op : BinaryOp} {left left' right right' : Expr} {pos pos' : Pos} :
      Alike left left' → Alike right right' → places pos pos' →
        Alike (.binary op left right pos) (.binary op left' right' pos')
  | call {callee callee' : Expr} {arguments arguments' : List Expr} {pos pos' : Pos} :
      Alike callee callee' → List.Forall₂ Alike arguments arguments' → places pos pos' →
        Alike (.call callee arguments pos) (.call callee' arguments' pos')
  | index {array array' index index' : Expr} {pos pos' : Pos} :
      Alike array array' → Alike index index' → places pos pos' →
        Alike (.index array index pos) (.index array' index' pos')

/-- What is absent has no place, so it is alike only where it may be missing. -/
inductive Stmt.Alike : Stmt → Stmt → Prop
  | eval {expr expr' : Expr} {pos pos' : Pos} :
      expr.Alike places expr' → places pos pos' → Alike (.eval expr pos) (.eval expr' pos')
  | block {body body' : List Stmt} {pos pos' : Pos} :
      List.Forall₂ Alike body body' → places pos pos' → Alike (.block body pos) (.block body' pos')
  | define {name : Text} {constant : Bool} {initial initial' : Expr}
      {namePos namePos' pos pos' : Pos} :
      places namePos namePos' → initial.Alike places initial' → places pos pos' →
        Alike (.define name namePos initial constant pos)
          (.define name namePos' initial' constant pos')
  | single {condition condition' : Expr} {body body' : List Stmt}
      {bodyPos bodyPos' pos pos' : Pos} :
      condition.Alike places condition' → List.Forall₂ Alike body body' →
        places bodyPos bodyPos' → places pos pos' →
          Alike (.cond condition body bodyPos .absent pos)
            (.cond condition' body' bodyPos' .absent pos')
  | double {condition condition' : Expr} {body body' : List Stmt} {otherwise otherwise' : Stmt}
      {bodyPos bodyPos' pos pos' : Pos} :
      condition.Alike places condition' → List.Forall₂ Alike body body' →
        places bodyPos bodyPos' → Alike otherwise otherwise' → places pos pos' →
          Alike (.cond condition body bodyPos otherwise pos)
            (.cond condition' body' bodyPos' otherwise' pos')
  | loop {condition condition' : Expr} {body body' : List Stmt}
      {bodyPos bodyPos' pos pos' : Pos} :
      condition.Alike places condition' → List.Forall₂ Alike body body' →
        places bodyPos bodyPos' → places pos pos' →
          Alike (.loop condition body bodyPos pos) (.loop condition' body' bodyPos' pos')

structure Program.Alike (program other : Program) : Prop where
  body : List.Forall₂ (Stmt.Alike places) program.body other.body
  pos : places program.pos other.pos

end Alike

variable {places : Pos → Pos → Prop}

theorem Token.Alike.shown {token other : Token} (alike : token.Alike places other) :
    token.shown = other.shown := by
  obtain ⟨kind, text, pos⟩ := token
  obtain ⟨rfl, rfl, _⟩ := alike
  rfl

theorem Expr.Alike.pos {expr other : Expr} (alike : expr.Alike places other) :
    places expr.pos other.pos := by
  cases alike <;> assumption

abbrev Tokens.Alike (places : Pos → Pos → Prop) : List Token → List Token → Prop :=
  List.Forall₂ (Token.Alike places)

structure Agrees (places : Pos → Pos → Prop) {α : Type} (same : α → α → Prop)
    {strict strict' : Bool} {given given' : List Token} (step : Step α strict given)
    (other : Step α strict' given') : Prop where
  result : Option.Rel same step.result other.result
  rest : Tokens.Alike places step.rest other.rest
  issues : List.Forall₂ (Diagnostic.Alike places) step.issues other.issues

section Steps

variable {α β : Type} {same : α → α → Prop} {onward : β → β → Prop}
  {strict strict' laxer laxer' : Bool} {given given' rest rest' : List Token}

theorem agrees_done {value value' : α} (related : same value value')
    (alike : Tokens.Alike places given given') :
    Agrees places same (.done value given) (.done value' given') :=
  ⟨.some related, alike, .nil⟩

theorem agrees_fail {message : Text} {pos pos' : Pos} (stands : places pos pos')
    (alike : Tokens.Alike places given given') :
    Agrees places same (Step.fail ⟨message, pos⟩ given : Step α strict given)
      (Step.fail ⟨message, pos'⟩ given' : Step α strict' given') :=
  ⟨.none, alike, .cons ⟨rfl, stands⟩ .nil⟩

theorem Agrees.after {token token' : Token} {step : Step α laxer rest} {other : Step α laxer' rest'}
    (agrees : Agrees places same step other) :
    Agrees places same (step.after token : Step α strict (token :: rest))
      (other.after token' : Step α strict' (token' :: rest')) :=
  ⟨agrees.result, agrees.rest, agrees.issues⟩

theorem Agrees.map {step : Step α strict given} {other : Step α strict' given'}
    {convert convert' : α → β} (agrees : Agrees places same step other)
    (related : ∀ {value value'}, same value value' → onward (convert value) (convert' value')) :
    Agrees places onward (step.map convert) (other.map convert') := by
  obtain ⟨result, rest, issues, suffix, spent⟩ := step
  obtain ⟨result', rest', issues', suffix', spent'⟩ := other
  obtain ⟨results, rests, found⟩ := agrees
  dsimp only at results
  cases results with
  | some holds => exact ⟨.some (related holds), rests, found⟩
  | none => exact ⟨.none, rests, found⟩

theorem Agrees.andThen {first : Step α strict given} {other : Step α strict' given'}
    {next : α → (rest : List Token) → rest <:+ given →
      (strict = true → rest.length < given.length) → Step β laxer rest}
    {next' : α → (rest : List Token) → rest <:+ given' →
      (strict' = true → rest.length < given'.length) → Step β laxer' rest}
    (begins : Agrees places same first other)
    (continues : ∀ value value' rest rest' suffix suffix' spent spent', same value value' →
      Tokens.Alike places rest rest' →
        Agrees places onward (next value rest suffix spent) (next' value' rest' suffix' spent')) :
    Agrees places onward (first.andThen next) (other.andThen next') := by
  obtain ⟨result, rest, issues, suffix, spent⟩ := first
  obtain ⟨result', rest', issues', suffix', spent'⟩ := other
  obtain ⟨results, rests, found⟩ := begins
  dsimp only at results rests found
  cases results with
  | none => exact ⟨.none, rests, found⟩
  | some holds =>
      have goesOn := continues _ _ rest rest' suffix suffix' (spent rfl) (spent' rfl) holds rests
      exact ⟨goesOn.result, goesOn.rest, List.rel_append found goesOn.issues⟩

variable {finish finish' : Pos}

theorem agrees_refuse (ends : places finish finish') (expected : Text)
    (alike : Tokens.Alike places given given') :
    Agrees places same (refuse finish expected given : Step α strict given)
      (refuse finish' expected given' : Step α strict' given') := by
  cases alike with
  | nil => exact agrees_fail ends .nil
  | @cons token token' rest rest' head tail =>
      rw [refuse, refuse, ← head.kind, ← head.shown]
      split
      · exact ⟨.none, tail, .cons ⟨head.text, head.pos⟩ .nil⟩
      · exact agrees_fail head.pos (.cons head tail)

theorem agrees_expect (ends : places finish finish') (kind : Kind) (context : Text)
    (alike : Tokens.Alike places given given') :
    Agrees places (Token.Alike places) (expect finish kind context given)
      (expect finish' kind context given') := by
  cases alike with
  | nil => exact agrees_refuse ends _ .nil
  | @cons token token' rest rest' head tail =>
      rw [expect, expect, ← head.kind]
      split
      · exact ⟨.some head, tail, .nil⟩
      · exact agrees_refuse ends _ (.cons head tail)

theorem alike_peek (ends : places finish finish') (alike : Tokens.Alike places given given') :
    (peek finish given).Alike places (peek finish' given') := by
  cases alike with
  | nil => exact ⟨rfl, rfl, ends⟩
  | cons head _ => exact head

end Steps

section Expressions

variable {finish finish' : Pos} (ends : places finish finish')

include ends

set_option linter.unusedSectionVars false

mutual

theorem expression_agrees {given given' : List Token} (alike : Tokens.Alike places given given') :
    Agrees places (Expr.Alike places) (expression finish given) (expression finish' given') := by
  rw [expression, expression]
  refine (disjunction_agrees alike).andThen
    fun left left' rest rest' _ _ spent _ lefts rests => ?_
  cases rests with
  | nil => exact agrees_done lefts .nil
  | @cons token token' more more' head tail =>
      have shorter : more.length + 1 < given.length := spent rfl
      dsimp only
      rw [← head.kind]
      split
      · exact .after ((expression_agrees tail).map fun rights => .binary lefts rights head.pos)
      · exact agrees_done lefts (.cons head tail)
termination_by 16 * given.length + 12
decreasing_by all_goals omega

theorem disjunction_agrees {given given' : List Token} (alike : Tokens.Alike places given given') :
    Agrees places (Expr.Alike places) (disjunction finish given) (disjunction finish' given') := by
  rw [disjunction, disjunction]
  refine (conjunction_agrees alike).andThen
    fun left left' rest rest' _ _ spent _ lefts rests => ?_
  have shorter := spent rfl
  exact disjuncts_agrees lefts rests
termination_by 16 * given.length + 11
decreasing_by all_goals omega

theorem disjuncts_agrees {left left' : Expr} (lefts : left.Alike places left')
    {given given' : List Token} (alike : Tokens.Alike places given given') :
    Agrees places (Expr.Alike places) (disjuncts finish left given)
      (disjuncts finish' left' given') := by
  rw [disjuncts.eq_def, disjuncts.eq_def]
  cases alike with
  | nil => exact agrees_done lefts .nil
  | @cons token token' rest rest' head tail =>
      dsimp only
      rw [← head.kind]
      split
      · refine .after ((conjunction_agrees tail).andThen
          fun right right' more more' _ _ spent _ rights rests => ?_)
        have shorter := spent rfl
        exact disjuncts_agrees (.binary lefts rights head.pos) rests
      · exact agrees_done lefts (.cons head tail)
termination_by 16 * given.length
decreasing_by all_goals (rw [List.length_cons]; omega)

theorem conjunction_agrees {given given' : List Token} (alike : Tokens.Alike places given given') :
    Agrees places (Expr.Alike places) (conjunction finish given) (conjunction finish' given') := by
  rw [conjunction, conjunction]
  refine (operation_agrees .equality alike).andThen
    fun left left' rest rest' _ _ spent _ lefts rests => ?_
  cases rests with
  | nil => exact agrees_done lefts .nil
  | @cons token token' more more' head tail =>
      have shorter : more.length + 1 < given.length := spent rfl
      dsimp only
      rw [← head.kind]
      split
      · exact .after ((expression_agrees tail).map fun rights => .binary lefts rights head.pos)
      · exact agrees_done lefts (.cons head tail)
termination_by 16 * given.length + 10
decreasing_by all_goals ((try rw [Tier.height]); omega)

theorem operation_agrees (tier : Tier) {given given' : List Token}
    (alike : Tokens.Alike places given given') :
    Agrees places (Expr.Alike places) (operation finish tier given)
      (operation finish' tier given') := by
  rw [operation, operation]
  refine (operand_agrees tier alike).andThen
    fun left left' rest rest' _ _ spent _ lefts rests => ?_
  have shorter := spent rfl
  exact operands_agrees tier lefts rests
termination_by 16 * given.length + 2 * tier.height + 3
decreasing_by all_goals omega

theorem operands_agrees (tier : Tier) {left left' : Expr} (lefts : left.Alike places left')
    {given given' : List Token} (alike : Tokens.Alike places given given') :
    Agrees places (Expr.Alike places) (operands finish tier left given)
      (operands finish' tier left' given') := by
  rw [operands.eq_def, operands.eq_def]
  cases alike with
  | nil => exact agrees_done lefts .nil
  | @cons token token' rest rest' head tail =>
      dsimp only
      rw [← head.kind]
      split
      · refine .after ((operand_agrees tier tail).andThen
          fun right right' more more' _ _ spent _ rights rests => ?_)
        have shorter := spent rfl
        exact operands_agrees tier (.binary lefts rights head.pos) rests
      · exact agrees_done lefts (.cons head tail)
termination_by 16 * given.length
decreasing_by
  all_goals
    have := Tier.height_le tier
    rw [List.length_cons]
    omega

theorem operand_agrees (tier : Tier) {given given' : List Token}
    (alike : Tokens.Alike places given given') :
    Agrees places (Expr.Alike places) (operand finish tier given)
      (operand finish' tier given') := by
  rw [operand.eq_def, operand.eq_def]
  cases tier with
  | equality => exact operation_agrees .comparison alike
  | comparison => exact operation_agrees .sum alike
  | sum => exact operation_agrees .product alike
  | product => exact unary_agrees alike
termination_by 16 * given.length + 2 * tier.height + 2
decreasing_by all_goals simp [Tier.height]

theorem unary_agrees {given given' : List Token} (alike : Tokens.Alike places given given') :
    Agrees places (Expr.Alike places) (unary finish given) (unary finish' given') := by
  rw [unary.eq_def, unary.eq_def]
  cases alike with
  | nil => exact postfixed_agrees .nil
  | @cons token token' rest rest' head tail =>
      dsimp only
      rw [← head.kind]
      split
      · exact .after ((unary_agrees tail).map fun operands => .unary operands head.pos)
      · exact postfixed_agrees (.cons head tail)
termination_by 16 * given.length + 1
decreasing_by all_goals ((try rw [List.length_cons]); omega)

theorem postfixed_agrees {given given' : List Token} (alike : Tokens.Alike places given given') :
    Agrees places (Expr.Alike places) (postfixed finish given) (postfixed finish' given') := by
  rw [postfixed.eq_def, postfixed.eq_def]
  cases alike with
  | nil => exact agrees_refuse ends _ .nil
  | @cons token token' rest rest' head tail =>
      dsimp only
      rw [← head.kind, ← head.text]
      split
      · exact .after (suffixes_agrees (.int head.pos) tail)
      · exact .after (suffixes_agrees (.float head.pos) tail)
      · exact .after (suffixes_agrees (.str head.pos) tail)
      · exact .after (suffixes_agrees (.name head.pos) tail)
      · refine .after ((expression_agrees tail).andThen
          fun inner inner' more more' _ _ spent _ inners rests => ?_)
        refine (agrees_expect ends .rightParen _ rests).andThen
          fun _ _ left left' _ _ spentToo _ _ others => ?_
        have shorter := spent rfl
        have shorterToo := spentToo rfl
        exact suffixes_agrees inners others
      · refine .after ((list_agrees .rightSquare _ tail).andThen
          fun elements elements' more more' _ _ spent _ lists rests => ?_)
        have shorter := spent rfl
        exact suffixes_agrees (.array lists head.pos) rests
      · exact agrees_refuse ends _ (.cons head tail)
termination_by 16 * given.length
decreasing_by all_goals (rw [List.length_cons]; omega)

theorem suffixes_agrees {base base' : Expr} (bases : base.Alike places base')
    {given given' : List Token} (alike : Tokens.Alike places given given') :
    Agrees places (Expr.Alike places) (suffixes finish base given)
      (suffixes finish' base' given') := by
  rw [suffixes.eq_def, suffixes.eq_def]
  cases alike with
  | nil => exact agrees_done bases .nil
  | @cons token token' rest rest' head tail =>
      dsimp only
      rw [← head.kind]
      split
      · refine .after ((list_agrees .rightParen _ tail).andThen
          fun arguments arguments' more more' _ _ spent _ lists rests => ?_)
        have shorter := spent rfl
        exact suffixes_agrees (.call bases lists bases.pos) rests
      · refine .after ((expression_agrees tail).andThen
          fun index index' more more' _ _ spent _ indices rests => ?_)
        refine (agrees_expect ends .rightSquare _ rests).andThen
          fun _ _ left left' _ _ spentToo _ _ others => ?_
        have shorter := spent rfl
        have shorterToo := spentToo rfl
        exact suffixes_agrees (.index bases indices head.pos) others
      · exact agrees_done bases (.cons head tail)
termination_by 16 * given.length
decreasing_by all_goals (rw [List.length_cons]; omega)

theorem list_agrees (closing : Kind) (what : Text) {given given' : List Token}
    (alike : Tokens.Alike places given given') :
    Agrees places (List.Forall₂ (Expr.Alike places)) (list finish closing what given)
      (list finish' closing what given') := by
  have head := alike_peek ends alike
  rw [list, list, ← head.kind, ← head.shown]
  split
  · exact agrees_fail head.pos alike
  · exact items_agrees closing what alike
termination_by 16 * given.length + 14
decreasing_by all_goals omega

theorem items_agrees (closing : Kind) (what : Text) {given given' : List Token}
    (alike : Tokens.Alike places given given') :
    Agrees places (List.Forall₂ (Expr.Alike places)) (items finish closing what given)
      (items finish' closing what given') := by
  rw [items, items]
  refine (expression_agrees alike).andThen
    fun item item' rest rest' _ _ spent _ items rests => ?_
  cases rests with
  | nil => exact (agrees_expect ends closing _ .nil).map fun _ => .cons items .nil
  | @cons token token' more more' head tail =>
      have shorter : more.length + 1 < given.length := spent rfl
      dsimp only
      rw [← head.kind]
      split
      · exact .after ((items_agrees closing what tail).map fun others => .cons items others)
      · exact (agrees_expect ends closing _ (.cons head tail)).map fun _ => .cons items .nil
termination_by 16 * given.length + 13
decreasing_by all_goals omega

end

end Expressions

theorem alike_recover {given given' : List Token} (alike : Tokens.Alike places given given') :
    Tokens.Alike places (recover given).1 (recover given').1 ∧
      List.Forall₂ (Diagnostic.Alike places) (recover given).2 (recover given').2 := by
  induction alike with
  | nil => exact ⟨.nil, .nil⟩
  | @cons token token' rest rest' head tail ih =>
      rw [recover.eq_def, recover.eq_def]
      dsimp only
      rw [← head.kind]
      split
      case h_7 => exact ⟨tail, .nil⟩
      case h_8 => exact ⟨ih.1, .cons ⟨head.text, head.pos⟩ ih.2⟩
      case h_9 => exact ih
      all_goals exact ⟨.cons head tail, .nil⟩

theorem alike_stepOver (unique : Relator.BiUnique places) {start start' : Pos}
    (stands : places start start') {given given' : List Token}
    (alike : Tokens.Alike places given given') :
    Tokens.Alike places (stepOver start given) (stepOver start' given') := by
  cases alike with
  | nil => exact .nil
  | @cons token token' rest rest' head tail =>
      have same : token.pos = start ↔ token'.pos = start' := Relator.rel_eq unique head.pos stands
      simp only [stepOver, ← head.kind, ← same]
      split
      · exact tail
      · exact .cons head tail

section Statements

variable {finish finish' : Pos} (ends : places finish finish') (unique : Relator.BiUnique places)

include ends

set_option linter.unusedSectionVars false

theorem definition_agrees {keyword keyword' : Token} (words : keyword.Alike places keyword')
    {given given' : List Token} (alike : Tokens.Alike places given given') :
    Agrees places (Stmt.Alike places) (definition finish keyword given)
      (definition finish' keyword' given') := by
  unfold definition
  rw [← words.kind]
  refine (agrees_expect ends .identifier _ alike).andThen
    fun name name' _ _ _ _ _ _ names rests => ?_
  refine (agrees_expect ends .assign _ rests).andThen fun _ _ _ _ _ _ _ _ _ rests => ?_
  refine (expression_agrees ends rests).andThen
    fun initial initial' _ _ _ _ _ _ initials rests => ?_
  refine (agrees_expect ends .semicolon _ rests).map fun _ => ?_
  rw [← names.text]
  exact .define names.pos initials words.pos

theorem simple_agrees {given given' : List Token} (alike : Tokens.Alike places given given') :
    Agrees places (Stmt.Alike places) (simple finish given) (simple finish' given') := by
  unfold simple
  refine (expression_agrees ends alike).andThen fun expr expr' _ _ _ _ _ _ exprs rests => ?_
  exact (agrees_expect ends .semicolon _ rests).map fun _ =>
    .eval exprs (alike_peek ends alike).pos

include unique

mutual

theorem statements_agrees (closing : Kind) {given given' : List Token}
    (alike : Tokens.Alike places given given') :
    Agrees places (List.Forall₂ (Stmt.Alike places)) (statements finish closing given)
      (statements finish' closing given') := by
  rw [statements.eq_def, statements.eq_def]
  cases alike with
  | nil => exact agrees_done .nil .nil
  | @cons token token' rest rest' head tail =>
      dsimp only
      by_cases stop : token.kind = closing ∨ token.kind = .eof
      · rw [dif_pos stop, dif_pos (head.kind ▸ stop)]
        exact agrees_done .nil (.cons head tail)
      · rw [dif_neg stop, dif_neg (head.kind ▸ stop)]
        have begins := statement_agrees (.cons head tail)
        generalize statement finish (token :: rest) = step at begins
        generalize statement finish' (token' :: rest') = step' at begins
        obtain ⟨result, left, issues, suffix, spent⟩ := step
        obtain ⟨result', left', issues', suffix', spent'⟩ := step'
        obtain ⟨results, rests, found⟩ := begins
        dsimp only at results rests found
        cases results with
        | @some stmt stmt' stmts =>
            have shorter : left.length < rest.length + 1 := spent rfl rfl
            have others := statements_agrees closing rests
            have joined : Agrees places (List.Forall₂ (Stmt.Alike places))
                ((statements finish closing left).map (stmt :: ·))
                ((statements finish' closing left').map (stmt' :: ·)) :=
              others.map fun more => .cons stmts more
            exact ⟨joined.result, others.rest, List.rel_append found others.issues⟩
        | none =>
            have shorter := length_stepOver_recover_lt (fun final => stop (.inr final)) suffix
            obtain ⟨recovered, reported⟩ := alike_recover rests
            have others := statements_agrees closing (alike_stepOver unique head.pos recovered)
            exact ⟨others.result, others.rest,
              List.rel_append (List.rel_append found reported) others.issues⟩
termination_by 16 * given.length + 3
decreasing_by all_goals (simp only [List.length_cons] at *; omega)

theorem statement_agrees {given given' : List Token} (alike : Tokens.Alike places given given') :
    Agrees places (Stmt.Alike places) (statement finish given) (statement finish' given') := by
  rw [statement.eq_def, statement.eq_def]
  cases alike with
  | nil => exact simple_agrees ends .nil
  | @cons token token' rest rest' head tail =>
      dsimp only
      rw [← head.kind]
      split
      · exact .after (conditional_agrees head.pos tail)
      · refine .after ((expression_agrees ends tail).andThen
          fun condition condition' more more' _ _ spent _ conditions rests => ?_)
        have shorter := spent rfl
        exact (block_agrees rests).map fun blocks => .loop conditions blocks.1 blocks.2 head.pos
      · exact (block_agrees (.cons head tail)).map fun blocks => .block blocks.1 blocks.2
      · exact .after (definition_agrees ends head tail)
      · exact .after (definition_agrees ends head tail)
      · exact simple_agrees ends (.cons head tail)
termination_by 16 * given.length + 2
decreasing_by all_goals (rw [List.length_cons]; omega)

theorem conditional_agrees {start start' : Pos} (starts : places start start')
    {given given' : List Token} (alike : Tokens.Alike places given given') :
    Agrees places (Stmt.Alike places) (conditional finish start given)
      (conditional finish' start' given') := by
  rw [conditional, conditional]
  refine (expression_agrees ends alike).andThen
    fun condition condition' rest rest' _ _ spent _ conditions rests => ?_
  have shorter := spent rfl
  refine (block_agrees rests).andThen fun body body' more more' _ _ spentToo _ blocks others => ?_
  cases others with
  | nil => exact agrees_done (.single conditions blocks.1 blocks.2 starts) .nil
  | @cons token token' left left' head tail =>
      have shorterToo : left.length + 1 < rest.length := spentToo rfl
      dsimp only
      rw [← head.kind]
      split
      · exact .after ((alternative_agrees tail).map fun alternatives =>
          .double conditions blocks.1 blocks.2 alternatives starts)
      · exact agrees_done (.single conditions blocks.1 blocks.2 starts) (.cons head tail)
termination_by 16 * given.length + 2
decreasing_by all_goals omega

theorem alternative_agrees {given given' : List Token}
    (alike : Tokens.Alike places given given') :
    Agrees places (Stmt.Alike places) (alternative finish given) (alternative finish' given') := by
  rw [alternative.eq_def, alternative.eq_def]
  cases alike with
  | nil => exact (block_agrees .nil).map fun blocks => .block blocks.1 blocks.2
  | @cons token token' rest rest' head tail =>
      dsimp only
      rw [← head.kind]
      split
      · exact .after (conditional_agrees head.pos tail)
      · exact (block_agrees (.cons head tail)).map fun blocks => .block blocks.1 blocks.2
termination_by 16 * given.length + 1
decreasing_by all_goals ((try rw [List.length_cons]); omega)

theorem block_agrees {given given' : List Token} (alike : Tokens.Alike places given given') :
    Agrees places
      (fun body body' => List.Forall₂ (Stmt.Alike places) body.1 body'.1 ∧ places body.2 body'.2)
      (block finish given) (block finish' given') := by
  rw [block, block]
  refine (agrees_expect ends .leftBrace _ alike).andThen
    fun opening opening' rest rest' _ _ spent _ openings rests => ?_
  have shorter := spent rfl
  refine (statements_agrees .rightBrace rests).andThen
    fun body body' more more' _ _ _ _ bodies others => ?_
  exact (agrees_expect ends .rightBrace _ others).map fun _ => ⟨bodies, openings.pos⟩
termination_by 16 * given.length
decreasing_by all_goals omega

end

end Statements

def Token.content (token : Token) : Kind × Text := (token.kind, token.text)

/-- The places of the tokens with the same number in two lists. -/
def Level (first second : List Token) (pos pos' : Pos) : Prop :=
  ∃ index : Nat, (first.map (·.pos))[index]? = some pos ∧ (second.map (·.pos))[index]? = some pos'

theorem tokens_nodup (source : Text) : ((tokens source).map (·.pos)).Nodup := by
  refine List.pairwise_map.mpr ((tokensFrom_ordered [] source.chars).imp fun before same => ?_)
  rw [Pos.Before, same] at before
  omega

theorem level_unique {first second : List Token} (apart : (first.map (·.pos)).Nodup)
    (apart' : (second.map (·.pos)).Nodup) : Relator.BiUnique (Level first second) := by
  have number {positions : List Pos} {index other : Nat} {pos : Pos} (apart : positions.Nodup)
      (here : positions[index]? = some pos) (there : positions[other]? = some pos) :
      index = other :=
    (List.getElem?_inj (List.getElem?_eq_some_iff.mp here).1 apart).mp (here.trans there.symm)
  constructor
  · rintro pos other pos' ⟨index, here, level⟩ ⟨index', there, level'⟩
    cases number apart' level level'
    exact Option.some.inj (here.symm.trans there)
  · rintro pos pos' other ⟨index, level, here⟩ ⟨index', level', there⟩
    cases number apart level level'
    exact Option.some.inj (here.symm.trans there)

theorem alike_of_content {first second : List Token}
    (same : first.map Token.content = second.map Token.content) :
    Tokens.Alike (Level first second) first second := by
  have long : first.length = second.length := by simpa using congrArg List.length same
  refine List.forall₂_iff_get.mpr ⟨long, fun index inside inside' => ?_⟩
  have contents : first[index].content = second[index].content := by
    have := List.getElem_of_eq same (by simpa using inside)
    simpa using this
  refine ⟨congrArg Prod.fst contents, congrArg Prod.snd contents, index, ?_, ?_⟩
  · simp [inside]
  · simp [inside']

theorem alike_concat {given given' : List Token} {final final' : Token}
    (alike : Tokens.Alike places (given ++ [final]) (given' ++ [final'])) :
    Tokens.Alike places given given' ∧ final.Alike places final' := by
  have backwards := List.forall₂_reverse_iff.mpr alike
  rw [List.reverse_concat, List.reverse_concat, List.forall₂_cons] at backwards
  exact ⟨List.forall₂_reverse_iff.mp backwards.2, backwards.1⟩

theorem program_agrees {finish finish' : Pos} {given given' : List Token}
    (ends : places finish finish') (unique : Relator.BiUnique places)
    (alike : Tokens.Alike places given given') :
    (∃ program other, Parser.program finish given = .ok program ∧
      Parser.program finish' given' = .ok other ∧ program.Alike places other) ∨
    ∃ issues others, Parser.program finish given = .error issues ∧
      Parser.program finish' given' = .error others ∧
      List.Forall₂ (Diagnostic.Alike places) issues others := by
  have read := statements_agrees ends unique .eof alike
  unfold Parser.program
  generalize statements finish .eof given = step at read ⊢
  generalize statements finish' .eof given' = step' at read ⊢
  obtain ⟨result, _, issues, _, _⟩ := step
  obtain ⟨result', _, issues', _, _⟩ := step'
  obtain ⟨results, _, found⟩ := read
  dsimp only at results found ⊢
  cases found with
  | nil =>
      refine .inl ⟨_, _, rfl, rfl, ?_, (alike_peek ends alike).pos⟩
      cases results with
      | some stmts => exact stmts
      | none => exact .nil
  | cons head tail => exact .inr ⟨_, _, rfl, rfl, .cons head tail⟩

/-- Sources whose tokens are the same are parsed alike, however they are laid out: into the same
program up to the places of its nodes, or with the same errors, each at the same token. -/
theorem parse_layout (first second : Text)
    (same : (tokens first).map Token.content = (tokens second).map Token.content) :
    (∃ program other, parse first = .ok program ∧ parse second = .ok other ∧
      program.Alike (Level (tokens first) (tokens second)) other) ∨
    ∃ issues others, parse first = .error issues ∧ parse second = .error others ∧
      List.Forall₂ (Diagnostic.Alike (Level (tokens first) (tokens second))) issues others := by
  have alike := alike_of_content same
  have unique := level_unique (tokens_nodup first) (tokens_nodup second)
  generalize Level (tokens first) (tokens second) = places at alike unique ⊢
  obtain ⟨given, final, whole, _⟩ := tokensFrom_ended first.chars .start
  obtain ⟨given', final', whole', _⟩ := tokensFrom_ended second.chars .start
  rw [← tokens] at whole whole'
  rw [whole, whole'] at alike
  obtain ⟨alike, ends⟩ := alike_concat alike
  rw [parse, parse, whole, whole', parseTokens_append, parseTokens_append]
  exact program_agrees ends.pos unique alike

/-- The parser steps over a brace that closes nothing, on one line as on two. -/
theorem parse_layout_braces :
    (tokens (text "\x7d a;\n= 1")).map Token.content =
        (tokens (text "\n\x7d // stray\n  a ; = 1")).map Token.content ∧
      ∃ issues others, parse (text "\x7d a;\n= 1") = .error issues ∧
        parse (text "\n\x7d // stray\n  a ; = 1") = .error others ∧
        List.Forall₂ (Diagnostic.Alike (Level (tokens (text "\x7d a;\n= 1"))
          (tokens (text "\n\x7d // stray\n  a ; = 1")))) issues others := by
  have same : (tokens (text "\x7d a;\n= 1")).map Token.content =
      (tokens (text "\n\x7d // stray\n  a ; = 1")).map Token.content := by decide +kernel
  have fails : (parse (text "\x7d a;\n= 1")).toBool = false := by decide +kernel
  rcases parse_layout _ _ same with ⟨program, _, parsed, _⟩ | failed
  · rw [parsed] at fails
    cases fails
  · exact ⟨same, failed⟩

end Rover
