import Rover.Proofs.Grammar.Spelled
import Rover.Proofs.Relocation

/-!
What the parser reads without an error it also reads lower down and with more tokens behind, and it
reads the same: a step looks at the places of tokens only to pass them on, and it does not look
behind a token at which it stops. An expression stops at the end of the tokens as well, so there it
is not the same; nor is a conditional, which may go on with an alternative.
-/

namespace Rover

open Rover.Parser
open Rover.Parser.Step (outcome_andThen outcome_map outcome_after)

def Token.move (lines : Int) (token : Token) : Token :=
  ⟨token.kind, token.text, token.pos.move lines⟩

@[simp] theorem Token.kind_move (lines : Int) (token : Token) :
    (token.move lines).kind = token.kind := rfl

@[simp] theorem Token.pos_move (lines : Int) (token : Token) :
    (token.move lines).pos = token.pos.move lines := rfl

theorem Expr.pos_move {expr : Expr} (spelled : expr.Spelled) (lines : Int) :
    (expr.move lines).pos = expr.pos.move lines := by
  cases expr with
  | absent => exact spelled.elim
  | _ => rfl

def below (lines : Int) (more given : List Token) : List Token :=
  given.map (Token.move lines) ++ more

section Steps

variable {α β : Type} {strict laxer strict' laxer' : Bool} {given given' : List Token}
  {lines : Int} {more : List Token} {shift : α → α} {onward : β → β}

theorem below_nil : below lines more [] = more := rfl

theorem below_cons (token : Token) (rest : List Token) :
    below lines more (token :: rest) = token.move lines :: below lines more rest := rfl

/-- A step without errors whose rest fits comes to the same lower down. -/
def Carried (lines : Int) (more : List Token) (fits : List Token → Prop) (shift : α → α)
    (step : Step α strict given) (lower : Option α × List Token × List Diagnostic) : Prop :=
  ∀ value, step.issues = [] → step.result = some value → fits step.rest →
    lower = (some (shift value), below lines more step.rest, [])

theorem carried_of_issues {step : Step α strict given} {fits : List Token → Prop}
    {lower : Option α × List Token × List Diagnostic} (failed : step.issues ≠ []) :
    Carried lines more fits shift step lower :=
  fun _ silent => absurd silent failed

theorem carried_refuse {fits : List Token → Prop} (finish : Pos) (expected : Text)
    {lower : Option α × List Token × List Diagnostic} :
    Carried lines more fits shift (refuse finish expected given : Step α strict given) lower := by
  refine carried_of_issues ?_
  unfold refuse
  split
  · exact List.cons_ne_nil _ _
  · split <;> exact List.cons_ne_nil _ _

theorem carried_done {fits : List Token → Prop} (value : α) :
    Carried lines more fits shift (.done value given)
      (Step.done (shift value) (below lines more given)).outcome := by
  rintro _ _ ⟨⟩ _
  rfl

/-- At the end of the tokens nothing is said about what would be read there. -/
theorem carried_end (value : α) {lower : Option α × List Token × List Diagnostic} :
    Carried lines more (· ≠ []) shift (.done value []) lower :=
  fun _ _ _ goesOn => absurd rfl goesOn

theorem Carried.after {fits : List Token → Prop} {step : Step α laxer given}
    {lower : Step α laxer' given'} {token token' : Token}
    (carried : Carried lines more fits shift step lower.outcome) :
    Carried lines more fits shift (step.after token : Step α strict (token :: given))
      (lower.after token' : Step α strict' (token' :: given')).outcome :=
  carried

theorem Carried.map {fits : List Token → Prop} {step : Step α strict given}
    {lower : Step α strict' given'} {convert convert' : α → β}
    (carried : Carried lines more fits shift step lower.outcome)
    (same : ∀ value, convert' (shift value) = onward (convert value)) :
    Carried lines more fits onward (step.map convert) (lower.map convert').outcome := by
  intro converted silent result fitting
  obtain ⟨value, found, rfl⟩ := Option.map_eq_some_iff.mp result
  rw [← same]
  exact outcome_map _ (carried value silent found fitting)

theorem rest_nil_of_given {step : Step α strict given} (ended : given = []) : step.rest = [] :=
  List.suffix_nil.mp (ended ▸ step.suffix)

section Then

variable {begins fits : List Token → Prop} {first : Step α strict given}
  {lower : Step α strict' given'}
  {next : α → (rest : List Token) → rest <:+ given →
    (strict = true → rest.length < given.length) → Step β laxer rest}
  {next' : α → (rest : List Token) → rest <:+ given' →
    (strict' = true → rest.length < given'.length) → Step β laxer' rest}

theorem Carried.andThen (carried : Carried lines more begins shift first lower.outcome)
    (leaves : ∀ value rest suffix spent, (next value rest suffix spent).result.isSome →
      fits (next value rest suffix spent).rest → begins rest)
    (continues : ∀ value rest suffix spent, first.issues = [] → first.result = some value →
      ∀ suffix' spent', Carried lines more fits onward (next value rest suffix spent)
        (next' (shift value) (below lines more rest) suffix' spent').outcome) :
    Carried lines more fits onward (first.andThen next) (lower.andThen next').outcome := by
  intro final silent result fitting
  cases found : first.result with
  | none =>
      obtain ⟨_, _, _, _, _⟩ := first
      dsimp only at found
      subst found
      cases result
  | some value =>
      obtain ⟨spent, result', rest, issues⟩ := Step.andThen_of_some next found
      rw [issues, List.append_eq_nil_iff] at silent
      rw [result'] at result
      rw [rest] at fitting ⊢
      have read := carried value silent.1 found
        (leaves _ _ _ _ (by rw [result]; rfl) fitting)
      exact outcome_andThen read fun suffix' spent' =>
        continues value _ _ _ silent.1 found suffix' spent' final silent.2 result fitting

theorem Carried.thenAny (carried : Carried lines more (fun _ => True) shift first lower.outcome)
    (continues : ∀ value rest suffix spent, first.issues = [] → first.result = some value →
      ∀ suffix' spent', Carried lines more fits onward (next value rest suffix spent)
        (next' (shift value) (below lines more rest) suffix' spent').outcome) :
    Carried lines more fits onward (first.andThen next) (lower.andThen next').outcome :=
  carried.andThen (fun _ _ _ _ _ _ => trivial) continues

theorem Carried.thenRest (carried : Carried lines more (· ≠ []) shift first lower.outcome)
    (continues : ∀ value rest suffix spent, first.issues = [] → first.result = some value →
      ∀ suffix' spent', Carried lines more (· ≠ []) onward (next value rest suffix spent)
        (next' (shift value) (below lines more rest) suffix' spent').outcome) :
    Carried lines more (· ≠ []) onward (first.andThen next) (lower.andThen next').outcome :=
  carried.andThen (fun _ _ _ _ _ goesOn ended => goesOn (rest_nil_of_given ended)) continues

theorem Carried.thenSpent {next : α → (rest : List Token) → rest <:+ given →
      (strict = true → rest.length < given.length) → Step β true rest}
    (carried : Carried lines more (· ≠ []) shift first lower.outcome)
    (continues : ∀ value rest suffix spent, first.issues = [] → first.result = some value →
      ∀ suffix' spent', Carried lines more fits onward (next value rest suffix spent)
        (next' (shift value) (below lines more rest) suffix' spent').outcome) :
    Carried lines more fits onward (first.andThen next) (lower.andThen next').outcome := by
  refine carried.andThen (fun value rest suffix spent done _ => ?_) continues
  have shorter := (next value rest suffix spent).spent done rfl
  exact List.ne_nil_of_length_pos (Nat.lt_of_le_of_lt (Nat.zero_le _) shorter)

end Then

theorem carried_nil {fits : List Token → Prop} {step : Step α true []}
    {lower : Option α × List Token × List Diagnostic} :
    Carried lines more fits shift step lower := by
  intro value _ result _
  have spent := step.spent (by rw [result]; rfl) rfl
  exact absurd spent (Nat.not_lt_zero _)

theorem carried_expect (finish finish' : Pos) (kind : Kind) (context : Text) :
    Carried lines more (fun _ => True) (Token.move lines) (expect finish kind context given)
      (expect finish' kind context (below lines more given)).outcome := by
  cases given with
  | nil => exact carried_nil
  | cons token rest =>
      have taken : (token.move lines).kind = kind → _ := outcome_expect finish' context
      rw [expect]
      split
      · next same =>
          rintro _ _ ⟨⟩ _
          exact taken same _
      · exact carried_refuse _ _

end Steps

section Expressions

variable {lines : Int} {more : List Token}

theorem expression_spelled {finish : Pos} {given : List Token} {expr : Expr}
    (silent : (expression finish given).issues = [])
    (found : (expression finish given).result = some expr) : expr.Spelled := by
  obtain ⟨value, used, result, _, placed⟩ := expression_sound finish given silent
  cases found.symm.trans result
  exact placed.derived.spelled

theorem list_spelled {finish : Pos} {closing : Kind} {what : Text} {given : List Token}
    {exprs : List Expr} (silent : (list finish closing what given).issues = [])
    (found : (list finish closing what given).result = some exprs) : Expr.SpelledAll exprs := by
  obtain ⟨value, used, result, _, _, _, _, placed, _⟩ :=
    list_sound finish closing what given silent
  cases found.symm.trans result
  exact placed.derived.spelled

mutual

theorem expression_carried (finish finish' : Pos) (given : List Token) :
    Carried lines more (· ≠ []) (Expr.move lines) (expression finish given)
      (expression finish' (below lines more given)).outcome := by
  rw [expression, expression]
  refine (disjunction_carried finish finish' given).thenRest fun left rest _ spent _ _ _ _ => ?_
  cases rest with
  | nil => exact carried_end left
  | cons token others =>
      have shorter : others.length + 1 < given.length := spent rfl
      dsimp only [below_cons, Token.kind_move]
      by_cases assigns : token.kind = .assign
      · simp only [assigns, if_true]
        exact .after ((expression_carried finish finish' others).map fun _ => rfl)
      · simp only [assigns, if_false]
        exact carried_done left
termination_by 16 * given.length + 12
decreasing_by all_goals omega

theorem disjunction_carried (finish finish' : Pos) (given : List Token) :
    Carried lines more (· ≠ []) (Expr.move lines) (disjunction finish given)
      (disjunction finish' (below lines more given)).outcome := by
  rw [disjunction, disjunction]
  refine (conjunction_carried finish finish' given).thenRest fun left rest _ spent _ _ _ _ => ?_
  have shorter := spent rfl
  exact disjuncts_carried finish finish' left rest
termination_by 16 * given.length + 11
decreasing_by all_goals omega

theorem disjuncts_carried (finish finish' : Pos) (left : Expr) (given : List Token) :
    Carried lines more (· ≠ []) (Expr.move lines) (disjuncts finish left given)
      (disjuncts finish' (left.move lines) (below lines more given)).outcome := by
  cases given with
  | nil =>
      rw [disjuncts]
      exact carried_end left
  | cons token rest =>
      rw [below_cons, disjuncts.eq_def, disjuncts.eq_def]
      by_cases isOr : token.kind = .or
      · simp only [isOr, Token.kind_move, if_true]
        refine .after ((conjunction_carried finish finish' rest).thenRest
          fun right others _ spent _ _ _ _ => ?_)
        have shorter := spent rfl
        exact disjuncts_carried finish finish' (.binary .or left right token.pos) others
      · simp only [isOr, Token.kind_move, if_false]
        exact carried_done left
termination_by 16 * given.length
decreasing_by all_goals (rw [List.length_cons]; omega)

theorem conjunction_carried (finish finish' : Pos) (given : List Token) :
    Carried lines more (· ≠ []) (Expr.move lines) (conjunction finish given)
      (conjunction finish' (below lines more given)).outcome := by
  rw [conjunction, conjunction]
  refine (operation_carried finish finish' .equality given).thenRest
    fun left rest _ spent _ _ _ _ => ?_
  cases rest with
  | nil => exact carried_end left
  | cons token others =>
      have shorter : others.length + 1 < given.length := spent rfl
      dsimp only [below_cons, Token.kind_move]
      by_cases isAnd : token.kind = .and
      · simp only [isAnd, if_true]
        exact .after ((expression_carried finish finish' others).map fun _ => rfl)
      · simp only [isAnd, if_false]
        exact carried_done left
termination_by 16 * given.length + 10
decreasing_by all_goals ((try rw [Tier.height]); omega)

theorem operation_carried (finish finish' : Pos) (tier : Tier) (given : List Token) :
    Carried lines more (· ≠ []) (Expr.move lines) (operation finish tier given)
      (operation finish' tier (below lines more given)).outcome := by
  rw [operation, operation]
  refine (operand_carried finish finish' tier given).thenRest fun left rest _ spent _ _ _ _ => ?_
  have shorter := spent rfl
  exact operands_carried finish finish' tier left rest
termination_by 16 * given.length + 2 * tier.height + 3
decreasing_by all_goals omega

theorem operands_carried (finish finish' : Pos) (tier : Tier) (left : Expr) (given : List Token) :
    Carried lines more (· ≠ []) (Expr.move lines) (operands finish tier left given)
      (operands finish' tier (left.move lines) (below lines more given)).outcome := by
  cases given with
  | nil =>
      rw [operands]
      exact carried_end left
  | cons token rest =>
      rw [below_cons, operands.eq_def, operands.eq_def]
      dsimp only [Token.kind_move]
      cases found : tier.operator? token.kind with
      | none => exact carried_done left
      | some op =>
          refine .after ((operand_carried finish finish' tier rest).thenRest
            fun right others _ spent _ _ _ _ => ?_)
          have shorter := spent rfl
          exact operands_carried finish finish' tier (.binary op left right token.pos) others
termination_by 16 * given.length
decreasing_by
  all_goals
    have := Tier.height_le tier
    rw [List.length_cons]
    omega

theorem operand_carried (finish finish' : Pos) (tier : Tier) (given : List Token) :
    Carried lines more (· ≠ []) (Expr.move lines) (operand finish tier given)
      (operand finish' tier (below lines more given)).outcome := by
  rw [operand.eq_def, operand.eq_def]
  cases tier with
  | equality => exact operation_carried finish finish' .comparison given
  | comparison => exact operation_carried finish finish' .sum given
  | sum => exact operation_carried finish finish' .product given
  | product => exact unary_carried finish finish' given
termination_by 16 * given.length + 2 * tier.height + 2
decreasing_by all_goals simp [Tier.height]

theorem unary_carried (finish finish' : Pos) (given : List Token) :
    Carried lines more (· ≠ []) (Expr.move lines) (unary finish given)
      (unary finish' (below lines more given)).outcome := by
  cases given with
  | nil => exact carried_nil
  | cons token rest =>
      rw [below_cons, unary.eq_def, unary.eq_def]
      dsimp only [Token.kind_move]
      cases found : unaryOperator? token.kind with
      | some op => exact .after ((unary_carried finish finish' rest).map fun _ => rfl)
      | none => exact postfixed_carried finish finish' (token :: rest)
termination_by 16 * given.length + 1
decreasing_by all_goals ((try rw [List.length_cons]); omega)

theorem postfixed_carried (finish finish' : Pos) (given : List Token) :
    Carried lines more (· ≠ []) (Expr.move lines) (postfixed finish given)
      (postfixed finish' (below lines more given)).outcome := by
  cases given with
  | nil => exact carried_nil
  | cons token rest =>
      rw [below_cons, postfixed.eq_def, postfixed.eq_def]
      dsimp only [Token.kind_move]
      split
      · exact .after (suffixes_carried finish finish' (.int token.text token.pos) trivial rest)
      · exact .after (suffixes_carried finish finish' (.float token.text token.pos) trivial rest)
      · exact .after (suffixes_carried finish finish' (.str token.text token.pos) trivial rest)
      · exact .after (suffixes_carried finish finish' (.name token.text token.pos) trivial rest)
      · refine .after ((expression_carried finish finish' rest).thenSpent
          fun inner others _ spent silent found _ _ => ?_)
        refine (carried_expect finish finish' .rightParen _).thenAny
          fun closing left _ spentToo _ _ _ _ => ?_
        have shorter := spent rfl
        have shorterToo := spentToo rfl
        exact suffixes_carried finish finish' inner (expression_spelled silent found) left
      · refine .after ((list_carried finish finish' .rightSquare _ rest).thenAny
          fun elements others _ spent silent found _ _ => ?_)
        have shorter := spent rfl
        have spelled : (Expr.array elements token.pos).Spelled := list_spelled silent found
        exact suffixes_carried finish finish' _ spelled others
      · exact carried_refuse _ _
termination_by 16 * given.length
decreasing_by all_goals (rw [List.length_cons]; omega)

theorem suffixes_carried (finish finish' : Pos) (base : Expr) (spelled : base.Spelled)
    (given : List Token) :
    Carried lines more (· ≠ []) (Expr.move lines) (suffixes finish base given)
      (suffixes finish' (base.move lines) (below lines more given)).outcome := by
  cases given with
  | nil =>
      rw [suffixes]
      exact carried_end base
  | cons token rest =>
      rw [below_cons, suffixes.eq_def, suffixes.eq_def]
      dsimp only [Token.kind_move]
      split
      · refine .after ((list_carried finish finish' .rightParen _ rest).thenAny
          fun arguments others _ spent silent found _ _ => ?_)
        have shorter := spent rfl
        have called : (Expr.call base arguments base.pos).Spelled :=
          ⟨spelled, list_spelled silent found⟩
        rw [Expr.pos_move spelled]
        exact suffixes_carried finish finish' _ called others
      · refine .after ((expression_carried finish finish' rest).thenSpent
          fun position others _ spent silent found _ _ => ?_)
        refine (carried_expect finish finish' .rightSquare _).thenAny
          fun closing left _ spentToo _ _ _ _ => ?_
        have shorter := spent rfl
        have shorterToo := spentToo rfl
        have indexed : (Expr.index base position token.pos).Spelled :=
          ⟨spelled, expression_spelled silent found⟩
        exact suffixes_carried finish finish' _ indexed left
      · exact carried_done base
termination_by 16 * given.length
decreasing_by all_goals (rw [List.length_cons]; omega)

theorem list_carried (finish finish' : Pos) (closing : Kind) (what : Text) (given : List Token) :
    Carried lines more (fun _ => True) (Expr.moveAll lines) (list finish closing what given)
      (list finish' closing what (below lines more given)).outcome := by
  cases given with
  | nil => exact carried_nil
  | cons token rest =>
      rw [list, list]
      by_cases closes : token.kind = closing
      · rw [if_pos (show (peek finish (token :: rest)).kind = closing from closes)]
        exact carried_of_issues (List.cons_ne_nil _ _)
      · rw [if_neg (show (peek finish (token :: rest)).kind ≠ closing from closes),
          if_neg (show (peek finish' (below lines more (token :: rest))).kind ≠ closing from
            closes)]
        exact items_carried finish finish' closing what (token :: rest)
termination_by 16 * given.length + 14
decreasing_by all_goals omega

theorem items_carried (finish finish' : Pos) (closing : Kind) (what : Text) (given : List Token) :
    Carried lines more (fun _ => True) (Expr.moveAll lines) (items finish closing what given)
      (items finish' closing what (below lines more given)).outcome := by
  rw [items, items]
  refine (expression_carried finish finish' given).thenSpent fun item rest _ spent _ _ _ _ => ?_
  cases rest with
  | nil => exact carried_nil
  | cons token others =>
      have shorter : others.length + 1 < given.length := spent rfl
      dsimp only [below_cons, Token.kind_move]
      by_cases comma : token.kind = .comma
      · simp only [comma, if_true]
        exact .after ((items_carried finish finish' closing what others).map fun _ => rfl)
      · simp only [comma, if_false]
        exact (carried_expect finish finish' closing _).map fun _ => rfl
termination_by 16 * given.length + 13
decreasing_by all_goals omega

end

end Expressions

section Statements

variable {lines : Int} {more : List Token}

theorem Carried.mono {α : Type} {strict : Bool} {given : List Token} {shift : α → α}
    {fits fewer : List Token → Prop} {step : Step α strict given}
    {lower : Option α × List Token × List Diagnostic}
    (carried : Carried lines more fits shift step lower)
    (implies : ∀ rest, fewer rest → fits rest) : Carried lines more fewer shift step lower :=
  fun value silent result fitting => carried value silent result (implies _ fitting)

theorem definition_carried (finish finish' : Pos) (keyword : Token) (given : List Token) :
    Carried lines more (fun _ => True) (Stmt.move lines) (definition finish keyword given)
      (definition finish' (keyword.move lines) (below lines more given)).outcome := by
  unfold definition
  refine (carried_expect finish finish' .identifier _).thenAny fun name afterName _ _ _ _ _ _ => ?_
  refine (carried_expect finish finish' .assign _).thenAny fun sign afterSign _ _ _ _ _ _ => ?_
  refine (expression_carried finish finish' afterSign).thenSpent fun initial rest _ _ _ _ _ _ => ?_
  exact (carried_expect finish finish' .semicolon _).map fun _ => rfl

theorem simple_carried (finish finish' : Pos) (given : List Token) :
    Carried lines more (fun _ => True) (Stmt.move lines) (simple finish given)
      (simple finish' (below lines more given)).outcome := by
  cases given with
  | nil => exact carried_nil
  | cons token rest =>
      unfold simple
      refine (expression_carried finish finish' (token :: rest)).thenSpent
        fun expr others _ _ _ _ _ _ => ?_
      exact (carried_expect finish finish' .semicolon _).map fun _ => rfl

/-- Statements without an error start with one that was read without an error. -/
theorem statements_silent {finish : Pos} {closing : Kind} {token : Token} {rest : List Token}
    (goesOn : ¬(token.kind = closing ∨ token.kind = .eof))
    (silent : (statements finish closing (token :: rest)).issues = []) :
    ∃ stmt left, (statement finish (token :: rest)).outcome = (some stmt, left, []) ∧
      left.length < rest.length + 1 ∧ (statements finish closing left).issues = [] ∧
      (statements finish closing (token :: rest)).result =
        (statements finish closing left).result.map (stmt :: ·) ∧
      (statements finish closing (token :: rest)).rest = (statements finish closing left).rest := by
  have begins := statement_sound finish (token :: rest)
  rw [statements.eq_def] at silent ⊢
  dsimp only at silent ⊢
  rw [dif_neg goesOn] at silent ⊢
  generalize statement finish (token :: rest) = step at *
  obtain ⟨result, left, issues, suffix, spent⟩ := step
  cases result with
  | some stmt =>
      obtain ⟨rfl, later⟩ := List.append_eq_nil_iff.mp silent
      exact ⟨stmt, left, rfl, spent rfl rfl, later, rfl, rfl⟩
  | none =>
      obtain ⟨silentHere, _⟩ := List.append_eq_nil_iff.mp (List.append_eq_nil_iff.mp silent).1
      obtain ⟨_, _, failed, _⟩ := begins silentHere
      cases failed

def moveBlock (lines : Int) (body : List Stmt × Pos) : List Stmt × Pos :=
  (Stmt.moveAll lines body.1, body.2.move lines)

/-- Statements are read together with those that go on where they end. -/
def Continued (lines : Int) (more : List Token) (finish finish' : Pos) (closing : Kind)
    (given : List Token) : Prop :=
  ∀ {body others : List Stmt} {after : List Token}, (statements finish closing given).issues = [] →
    (statements finish closing given).result = some body →
      ((statements finish closing given).rest = [] → NoElse more) →
        (statements finish' closing
            (below lines more (statements finish closing given).rest)).outcome =
          (some others, after, []) →
            (statements finish' closing (below lines more given)).outcome =
              (some (Stmt.moveAll lines body ++ others), after, [])

mutual

theorem statements_continued (finish finish' : Pos) (closing : Kind) (given : List Token) :
    Continued lines more finish finish' closing given := by
  cases given with
  | nil =>
      intro body others after _ result _ goesOn
      rw [statements.eq_def] at result goesOn
      cases result
      exact goesOn
  | cons token rest =>
      intro body others after silent result noElse goesOn
      by_cases stop : token.kind = closing ∨ token.kind = .eof
      · have stopped : statements finish closing (token :: rest) = .done [] (token :: rest) := by
          rw [statements.eq_def]
          exact dif_pos stop
        rw [stopped] at result goesOn
        cases result
        exact goesOn
      · obtain ⟨stmt, left, read, shorter, silentLater, same, sameRest⟩ :=
          statements_silent stop silent
        rw [sameRest] at noElse goesOn
        rw [same] at result
        obtain ⟨stmts, found, rfl⟩ := Option.map_eq_some_iff.mp result
        simp only [Step.outcome, Prod.mk.injEq] at read
        obtain ⟨readStmt, rfl, readSilent⟩ := read
        have begins := statement_carried finish finish' (token :: rest) stmt readSilent readStmt
          fun ended => noElse (rest_nil_of_given ended)
        exact statements_cons stop begins
          (statements_continued finish finish' closing _ silentLater found noElse goesOn)
termination_by 16 * given.length + 3
decreasing_by all_goals (rw [List.length_cons]; omega)

theorem statement_carried (finish finish' : Pos) (given : List Token) :
    Carried lines more (fun rest => rest = [] → NoElse more) (Stmt.move lines)
      (statement finish given) (statement finish' (below lines more given)).outcome := by
  cases given with
  | nil => exact carried_nil
  | cons token rest =>
      rw [below_cons, statement.eq_def, statement.eq_def]
      dsimp only [Token.kind_move]
      split
      · exact .after (conditional_carried finish finish' token.pos rest)
      · refine .after ((expression_carried finish finish' rest).thenSpent
          fun condition others _ spent _ _ _ _ => ?_)
        have shorter := spent rfl
        exact .map ((block_carried finish finish' others).mono fun _ _ => trivial) fun _ => rfl
      · exact .map ((block_carried finish finish' (token :: rest)).mono fun _ _ => trivial)
          fun _ => rfl
      · exact .after ((definition_carried finish finish' token rest).mono fun _ _ => trivial)
      · exact .after ((definition_carried finish finish' token rest).mono fun _ _ => trivial)
      · exact (simple_carried finish finish' (token :: rest)).mono fun _ _ => trivial
termination_by 16 * given.length + 2
decreasing_by all_goals (rw [List.length_cons]; omega)

theorem conditional_carried (finish finish' start : Pos) (given : List Token) :
    Carried lines more (fun rest => rest = [] → NoElse more) (Stmt.move lines)
      (conditional finish start given)
      (conditional finish' (start.move lines) (below lines more given)).outcome := by
  rw [conditional, conditional]
  refine (expression_carried finish finish' given).thenSpent
    fun condition rest _ spent _ _ _ _ => ?_
  have shorter := spent rfl
  refine (block_carried finish finish' rest).thenAny fun body left _ spentToo _ _ _ _ => ?_
  cases left with
  | nil =>
      -- here the tokens behind are looked at, which is why they must not start an alternative
      rintro _ _ ⟨⟩ noElse
      cases more with
      | nil => rfl
      | cons token left =>
          have other : token.kind ≠ .elseWord := noElse rfl
          dsimp only [below_nil]
          rw [if_neg other]
          rfl
  | cons token others =>
      have shorterToo : others.length + 1 < rest.length := spentToo rfl
      dsimp only [below_cons, Token.kind_move]
      by_cases isElse : token.kind = .elseWord
      · simp only [isElse, if_true]
        exact .after ((alternative_carried finish finish' others).map fun _ => rfl)
      · simp only [isElse, if_false]
        exact carried_done _
termination_by 16 * given.length + 2
decreasing_by all_goals omega

theorem alternative_carried (finish finish' : Pos) (given : List Token) :
    Carried lines more (fun rest => rest = [] → NoElse more) (Stmt.move lines)
      (alternative finish given) (alternative finish' (below lines more given)).outcome := by
  cases given with
  | nil => exact carried_nil
  | cons token rest =>
      rw [below_cons, alternative.eq_def, alternative.eq_def]
      dsimp only [Token.kind_move]
      by_cases isIf : token.kind = .ifWord
      · simp only [isIf, if_true]
        exact .after (conditional_carried finish finish' token.pos rest)
      · simp only [isIf, if_false]
        exact .map ((block_carried finish finish' (token :: rest)).mono fun _ _ => trivial)
          fun _ => rfl
termination_by 16 * given.length + 1
decreasing_by all_goals ((try rw [List.length_cons]); omega)

theorem block_carried (finish finish' : Pos) (given : List Token) :
    Carried lines more (fun _ => True) (moveBlock lines) (block finish given)
      (block finish' (below lines more given)).outcome := by
  rw [block, block]
  refine (carried_expect finish finish' .leftBrace _).thenAny fun opening rest _ spent _ _ _ _ => ?_
  have shorter := spent rfl
  -- the statements of a block stop before its brace, and there nothing is added to them lower down
  have inside : Carried lines more (· ≠ []) (Stmt.moveAll lines)
      (statements finish .rightBrace rest)
      (statements finish' .rightBrace (below lines more rest)).outcome := by
    intro body silent result goesOn
    have ended := statements_ended finish .rightBrace rest
    cases left : (statements finish .rightBrace rest).rest with
    | nil => exact absurd left goesOn
    | cons token others =>
        rw [left] at ended
        have stops : (statements finish' .rightBrace (below lines more (token :: others))).outcome =
            (some [], below lines more (token :: others), []) := by
          rw [below_cons, statements.eq_def]
          dsimp only
          rw [dif_pos (show (token.move lines).kind = .rightBrace ∨ (token.move lines).kind = .eof
            from ended)]
          rfl
        rw [← left] at stops
        have whole := statements_continued finish finish' .rightBrace rest silent result
          (fun ended => absurd ended goesOn) stops
        rw [List.append_nil] at whole
        rw [whole, left]
  refine inside.thenSpent fun body others _ _ _ _ _ _ => ?_
  exact (carried_expect finish finish' .rightBrace _).map fun _ => rfl
termination_by 16 * given.length
decreasing_by all_goals omega

end

end Statements

end Rover
