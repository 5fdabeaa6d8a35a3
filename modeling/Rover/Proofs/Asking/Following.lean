import Rover.Proofs.Asking
import Rover.Proofs.Grammar

/-!
What the parser finds as a client is what it finds with the whole list before it. Each client is set
beside the parser of the same name: at the cursor before some tokens, it comes to the same result
with the same errors, and it leaves the cursor before the tokens that the parser leaves.
-/

namespace Rover

open Rover.Parser (Step Tier)

namespace Asking

variable {α β : Type}

def before (final : Token) (given : List Token) : Cursor := ⟨given ++ [final]⟩

def Unended (given : List Token) : Prop :=
  ∀ token ∈ given, token.kind ≠ .eof

section Unended

variable {token : Token} {given rest : List Token}

theorem Unended.suffix (unended : Unended given) (suffix : rest <:+ given) : Unended rest :=
  fun token member => unended token (suffix.mem member)

theorem Unended.head (unended : Unended (token :: rest)) : token.kind ≠ .eof :=
  unended token List.mem_cons_self

theorem Unended.tail (unended : Unended (token :: rest)) : Unended rest :=
  unended.suffix (List.suffix_cons token rest)

end Unended

/-- At the cursor before some tokens, a client finds what a step finds and stops where it stops. -/
def Follows {strict : Bool} {given : List Token} (final : Token) (asking : Asking α)
    (step : Step α strict given) : Prop :=
  asking.meets (before final given) = ((step.result, step.issues), before final step.rest)

section Follows

variable {strict laxer : Bool} {final token : Token} {given rest : List Token}

theorem moved_before (more : token.kind ≠ .eof) :
    (before final (token :: rest)).moved = before final rest :=
  if_neg more

theorem current_before (final : Token) (given : List Token) :
    (before final given).current = given.headD final := by
  cases given <;> rfl

theorem follows_pure (final : Token) (value : α) (given : List Token) :
    Follows final (pure value) (.done value given) :=
  rfl

theorem follows_andThen {asking : Asking α} {goOn : α → Asking β} {step : Step α strict given}
    {next : α → (rest : List Token) → rest <:+ given →
      (strict = true → rest.length < given.length) → Step β laxer rest}
    (first : Follows final asking step)
    (second : ∀ value rest suffix spent, Follows final (goOn value)
      (next value rest suffix spent)) :
    Follows final (asking >>= goOn) (step.andThen next) := by
  obtain ⟨result, rest, issues, suffix, spent⟩ := step
  cases result with
  | none => exact meets_bind_of_none first goOn
  | some value =>
      refine (meets_bind_of_some first goOn).trans ?_
      rw [show (goOn value).meets (before final rest) = _ from second value rest suffix (spent rfl)]
      rfl

theorem follows_map {asking : Asking α} {step : Step α strict given}
    (follows : Follows final asking step) (convert : α → β) :
    Follows final (asking >>= fun value => pure (convert value)) (step.map convert) := by
  obtain ⟨result, rest, issues, suffix, spent⟩ := step
  cases result with
  | none => exact meets_bind_of_none follows _
  | some value =>
      refine (meets_bind_of_some follows _).trans ?_
      exact congrArg (fun found => ((some (convert value), found), before final rest))
        (List.append_nil issues)

theorem follows_peek {goOn : Token → Asking α} {step : Step α strict given}
    (follows : Follows final (goOn (given.headD final)) step) :
    Follows final (peek >>= goOn) step := by
  refine (meets_bind_silent (meets_peek _) goOn).trans ?_
  rw [current_before]
  exact follows

theorem follows_consume {goOn : Token → Asking α} {step : Step α laxer rest}
    (more : token.kind ≠ .eof) (follows : Follows final (goOn token) step) :
    Follows final (consume >>= goOn) (Step.after token step : Step α strict (token :: rest)) := by
  refine (meets_bind_silent (meets_consume _) goOn).trans ?_
  rw [moved_before more]
  exact follows

theorem follows_taken {kinds : List Kind} {goOn : Option Token → Asking α}
    {step : Step α laxer rest} (more : token.kind ≠ .eof) (wanted : token.kind ∈ kinds)
    (follows : Follows final (goOn (some token)) step) :
    Follows final (consumeIf kinds >>= goOn)
      (Step.after token step : Step α strict (token :: rest)) := by
  refine (meets_bind_silent (meets_consumeIf_taken wanted) goOn).trans ?_
  rw [moved_before more]
  exact follows

theorem follows_left {kinds : List Kind} {goOn : Option Token → Asking α}
    {step : Step α strict given} (other : (given.headD final).kind ∉ kinds)
    (follows : Follows final (goOn none) step) : Follows final (consumeIf kinds >>= goOn) step := by
  rw [← current_before] at other
  exact (meets_bind_silent (meets_consumeIf_left other) goOn).trans follows

theorem follows_choice {kind : Kind} {goOn : Option Token → Asking α} {taken : Step α laxer rest}
    {left : Step α strict (token :: rest)} (more : token.kind ≠ .eof)
    (first : Follows final (goOn (some token)) taken) (second : Follows final (goOn none) left) :
    Follows final (consumeIf [kind] >>= goOn)
      (if token.kind = kind then .after token taken else left) := by
  split
  · next same => exact follows_taken more (List.mem_singleton.mpr same) first
  · next other => exact follows_left (by simpa using other) second

theorem shown_of_eof (ends : token.kind = .eof) : token.shown = (Token.finish token.pos).shown := by
  unfold Token.shown
  rw [ends]
  rfl

theorem follows_refuse (ends : final.kind = .eof) (unended : Unended given) (expected : Text) :
    Follows final (refuse (given.headD final) expected)
      (Parser.refuse final.pos expected given : Step α strict given) := by
  cases given with
  | nil =>
      rw [List.headD_nil, refuse, if_neg (by simp [ends]), shown_of_eof ends]
      rfl
  | cons token rest =>
      rw [List.headD_cons, refuse, Parser.refuse]
      split
      · refine (meets_bind_silent (meets_consume _) _).trans ?_
        rw [moved_before unended.head]
        rfl
      · rfl

theorem follows_expect (ends : final.kind = .eof) (unended : Unended given) {kind : Kind}
    (goesOn : kind ≠ .eof) (context : Text) :
    Follows final (expect kind context) (Parser.expect final.pos kind context given) := by
  have refused : Follows final
      (peek >>= fun token => refuse token (Parser.expect.expected kind context))
      (Parser.refuse final.pos (Parser.expect.expected kind context) given :
        Step Token true given) :=
    follows_peek (follows_refuse ends unended _)
  cases given with
  | nil => exact follows_left (by simp [ends, goesOn.symm]) refused
  | cons token rest =>
      rw [Parser.expect]
      change Follows final _ (if token.kind = kind then .after token (.done token rest) else _)
      exact follows_choice unended.head (follows_pure final token rest) refused

end Follows

/-- Each client of an expression follows its parser if the fuel is above its bound. -/
structure FollowsExpressions (final : Token) (fuel : Nat) : Prop where
  expression : ∀ given, Unended given → 16 * given.length + 12 < fuel →
    Follows final (expression fuel) (Parser.expression final.pos given)
  disjunction : ∀ given, Unended given → 16 * given.length + 11 < fuel →
    Follows final (disjunction fuel) (Parser.disjunction final.pos given)
  disjuncts : ∀ left given, Unended given → 16 * given.length < fuel →
    Follows final (disjuncts fuel left) (Parser.disjuncts final.pos left given)
  conjunction : ∀ given, Unended given → 16 * given.length + 10 < fuel →
    Follows final (conjunction fuel) (Parser.conjunction final.pos given)
  operation : ∀ tier given, Unended given → 16 * given.length + 2 * tier.height + 3 < fuel →
    Follows final (operation fuel tier) (Parser.operation final.pos tier given)
  operands : ∀ tier left given, Unended given → 16 * given.length < fuel →
    Follows final (operands fuel tier left) (Parser.operands final.pos tier left given)
  operand : ∀ tier given, Unended given → 16 * given.length + 2 * tier.height + 2 < fuel →
    Follows final (operand fuel tier) (Parser.operand final.pos tier given)
  unary : ∀ given, Unended given → 16 * given.length + 1 < fuel →
    Follows final (unary fuel) (Parser.unary final.pos given)
  postfixed : ∀ given, Unended given → 16 * given.length < fuel →
    Follows final (postfixed fuel) (Parser.postfixed final.pos given)
  suffixes : ∀ base given, Unended given → 16 * given.length < fuel →
    Follows final (suffixes fuel base) (Parser.suffixes final.pos base given)
  list : ∀ closing what given, closing ≠ .eof → Unended given → 16 * given.length + 14 < fuel →
    Follows final (list fuel closing what) (Parser.list final.pos closing what given)
  items : ∀ closing what given, closing ≠ .eof → Unended given → 16 * given.length + 13 < fuel →
    Follows final (items fuel closing what) (Parser.items final.pos closing what given)

section Expressions

variable {final token : Token} {given rest : List Token} {fuel : Nat}

theorem follows_expression (ends : final.kind = .eof) (ih : FollowsExpressions final fuel)
    (unended : Unended given) (enough : 16 * given.length + 12 < fuel + 1) :
    Follows final (expression (fuel + 1)) (Parser.expression final.pos given) := by
  rw [expression, Parser.expression]
  refine follows_andThen (ih.disjunction given unended (by omega)) fun left rest suffix spent => ?_
  have shorter := spent rfl
  cases rest with
  | nil => exact follows_left (by simp [ends]) (follows_pure _ _ _)
  | cons token more =>
      rw [List.length_cons] at shorter
      have later := unended.suffix suffix
      have right := ih.expression more later.tail (by omega)
      exact follows_choice later.head (follows_map right _) (follows_pure _ _ _)

theorem follows_disjunction (ih : FollowsExpressions final fuel) (unended : Unended given)
    (enough : 16 * given.length + 11 < fuel + 1) :
    Follows final (disjunction (fuel + 1)) (Parser.disjunction final.pos given) := by
  rw [disjunction, Parser.disjunction]
  refine follows_andThen (ih.conjunction given unended (by omega)) fun left rest suffix spent => ?_
  have shorter := spent rfl
  exact ih.disjuncts left rest (unended.suffix suffix) (by omega)

theorem follows_disjuncts (ends : final.kind = .eof) (ih : FollowsExpressions final fuel)
    (left : Expr) (unended : Unended given) (enough : 16 * given.length < fuel + 1) :
    Follows final (disjuncts (fuel + 1) left) (Parser.disjuncts final.pos left given) := by
  rw [disjuncts, Parser.disjuncts.eq_def]
  cases given with
  | nil => exact follows_left (by simp [ends]) (follows_pure _ _ _)
  | cons token rest =>
      rw [List.length_cons] at enough
      refine follows_choice unended.head ?_ (follows_pure _ _ _)
      refine follows_andThen (ih.conjunction rest unended.tail (by omega)) ?_
      intro right more suffix spent
      have shorter := spent rfl
      exact ih.disjuncts _ more (unended.tail.suffix suffix) (by omega)

theorem follows_conjunction (ends : final.kind = .eof) (ih : FollowsExpressions final fuel)
    (unended : Unended given) (enough : 16 * given.length + 10 < fuel + 1) :
    Follows final (conjunction (fuel + 1)) (Parser.conjunction final.pos given) := by
  rw [conjunction, Parser.conjunction]
  have first := ih.operation .equality given unended (by simp only [Tier.height]; omega)
  refine follows_andThen first fun left rest suffix spent => ?_
  have shorter := spent rfl
  cases rest with
  | nil => exact follows_left (by simp [ends]) (follows_pure _ _ _)
  | cons token more =>
      rw [List.length_cons] at shorter
      have later := unended.suffix suffix
      have right := ih.expression more later.tail (by omega)
      exact follows_choice later.head (follows_map right _) (follows_pure _ _ _)

theorem follows_operation (ih : FollowsExpressions final fuel) (tier : Tier)
    (unended : Unended given) (enough : 16 * given.length + 2 * tier.height + 3 < fuel + 1) :
    Follows final (operation (fuel + 1) tier) (Parser.operation final.pos tier given) := by
  rw [operation, Parser.operation]
  refine follows_andThen (ih.operand tier given unended (by omega)) fun left rest suffix spent => ?_
  have shorter := spent rfl
  exact ih.operands tier left rest (unended.suffix suffix) (by omega)

theorem mem_kinds_iff {tier : Tier} {kind : Kind} :
    kind ∈ kinds tier ↔ (tier.operator? kind).isSome = true := by
  cases tier <;> cases kind <;> simp [kinds, Tier.operator?]

theorem follows_operands (ends : final.kind = .eof) (ih : FollowsExpressions final fuel)
    (tier : Tier) (left : Expr) (unended : Unended given) (enough : 16 * given.length < fuel + 1) :
    Follows final (operands (fuel + 1) tier left) (Parser.operands final.pos tier left given) := by
  rw [operands, Parser.operands.eq_def]
  cases given with
  | nil =>
      refine follows_left ?_ (follows_pure _ _ _)
      rw [List.headD_nil, ends, mem_kinds_iff]
      cases tier <;> simp [Tier.operator?]
  | cons token rest =>
      dsimp only
      rw [List.length_cons] at enough
      split
      · next op joins =>
          refine follows_taken unended.head (mem_kinds_iff.mpr (by simp [joins])) ?_
          dsimp only
          rw [joins]
          have height := tier.height_le
          refine follows_andThen (ih.operand tier rest unended.tail (by omega)) ?_
          intro right more suffix spent
          have shorter := spent rfl
          exact ih.operands tier _ more (unended.tail.suffix suffix) (by omega)
      · next other => exact follows_left (by simp [mem_kinds_iff, other]) (follows_pure _ _ _)

theorem follows_operand (ih : FollowsExpressions final fuel) (tier : Tier) (unended : Unended given)
    (enough : 16 * given.length + 2 * tier.height + 2 < fuel + 1) :
    Follows final (operand (fuel + 1) tier) (Parser.operand final.pos tier given) := by
  cases tier with
  | product =>
      rw [operand, Parser.operand]
      exact ih.unary given unended (by simp only [Tier.height] at enough; omega)
  | _ =>
      rw [operand, Parser.operand]
      exact ih.operation _ given unended (by simp only [Tier.height] at enough ⊢; omega)

theorem follows_unary (ends : final.kind = .eof) (ih : FollowsExpressions final fuel)
    (unended : Unended given) (enough : 16 * given.length + 1 < fuel + 1) :
    Follows final (unary (fuel + 1)) (Parser.unary final.pos given) := by
  rw [unary, Parser.unary.eq_def]
  cases given with
  | nil => exact follows_left (by simp [ends]) (ih.postfixed [] unended (by simpa using enough))
  | cons token rest =>
      dsimp only
      have less := enough
      rw [List.length_cons] at less
      have wanted : token.kind ∈ [Kind.not, .minus] ↔
          (Parser.unaryOperator? token.kind).isSome = true := by
        cases token.kind <;> simp [Parser.unaryOperator?]
      split
      · next op signs =>
          refine follows_taken unended.head (wanted.mpr (by simp [signs])) ?_
          dsimp only
          rw [signs]
          exact follows_map (ih.unary rest unended.tail (by omega)) _
      · next other =>
          refine follows_left (by simp [wanted, other]) ?_
          exact ih.postfixed _ unended (by omega)

theorem follows_postfixed (ends : final.kind = .eof) (ih : FollowsExpressions final fuel)
    (unended : Unended given) (enough : 16 * given.length < fuel + 1) :
    Follows final (postfixed (fuel + 1)) (Parser.postfixed final.pos given) := by
  have refused : Follows final (refuse (given.headD final) (text "expression"))
      (Parser.refuse final.pos (text "expression") given : Step Expr true given) :=
    follows_refuse ends unended _
  rw [postfixed, Parser.postfixed.eq_def]
  refine follows_peek ?_
  cases given with
  | nil =>
      dsimp only [List.headD_nil] at refused ⊢
      rwa [ends]
  | cons token rest =>
      dsimp only [List.headD_cons] at refused ⊢
      rw [List.length_cons] at enough
      cases token.kind with
      | int | float | string | identifier =>
          exact follows_consume unended.head (ih.suffixes _ rest unended.tail (by omega))
      | leftParen =>
          refine follows_consume unended.head ?_
          refine follows_andThen (ih.expression rest unended.tail (by omega)) ?_
          intro inner more suffix spent
          have shorter := spent rfl
          have later := unended.tail.suffix suffix
          refine follows_andThen (follows_expect ends later (by decide) _) ?_
          intro closing left suffix' spent'
          have shorter' := spent' rfl
          exact ih.suffixes inner left (later.suffix suffix') (by omega)
      | leftSquare =>
          refine follows_consume unended.head ?_
          refine follows_andThen (ih.list _ _ rest (by decide) unended.tail (by omega)) ?_
          intro elements more suffix spent
          have shorter := spent rfl
          exact ih.suffixes _ more (unended.tail.suffix suffix) (by omega)
      | _ => exact refused

theorem follows_suffixes (ends : final.kind = .eof) (ih : FollowsExpressions final fuel)
    (base : Expr) (unended : Unended given) (enough : 16 * given.length < fuel + 1) :
    Follows final (suffixes (fuel + 1) base) (Parser.suffixes final.pos base given) := by
  rw [suffixes, Parser.suffixes.eq_def]
  cases given with
  | nil => exact follows_left (by simp [ends]) (follows_pure _ _ _)
  | cons token rest =>
      dsimp only
      rw [List.length_cons] at enough
      split
      · next opens =>
          refine follows_taken unended.head (by simp [opens]) ?_
          dsimp only
          rw [if_pos opens]
          refine follows_andThen (ih.list _ _ rest (by decide) unended.tail (by omega)) ?_
          intro arguments more suffix spent
          have shorter := spent rfl
          exact ih.suffixes _ more (unended.tail.suffix suffix) (by omega)
      · next opens =>
          refine follows_taken unended.head (by simp [opens]) ?_
          dsimp only
          rw [if_neg (by simp [opens])]
          refine follows_andThen (ih.expression rest unended.tail (by omega)) ?_
          intro index more suffix spent
          have shorter := spent rfl
          have later := unended.tail.suffix suffix
          refine follows_andThen (follows_expect ends later (by decide) _) ?_
          intro closing left suffix' spent'
          have shorter' := spent' rfl
          exact ih.suffixes _ left (later.suffix suffix') (by omega)
      · next noCall noIndex =>
          have other : token.kind ∉ [Kind.leftParen, .leftSquare] := fun opens =>
            (List.mem_cons.mp opens).elim noCall fun index =>
              noIndex (List.mem_singleton.mp index)
          exact follows_left other (follows_pure _ _ _)

theorem follows_list (ends : final.kind = .eof) (ih : FollowsExpressions final fuel)
    {closing : Kind} (goesOn : closing ≠ .eof) (what : Text) (unended : Unended given)
    (enough : 16 * given.length + 14 < fuel + 1) :
    Follows final (list (fuel + 1) closing what) (Parser.list final.pos closing what given) := by
  rw [list, Parser.list]
  refine follows_peek ?_
  have items := ih.items closing what given goesOn unended (by omega)
  cases given with
  | nil =>
      have other : final.kind ≠ closing := fun same => goesOn (same.symm.trans ends)
      have finished : (Token.finish final.pos).kind ≠ closing := fun same => goesOn same.symm
      rw [List.headD_nil, Parser.peek, List.headD_nil, if_neg other, if_neg finished]
      exact items
  | cons token rest =>
      rw [List.headD_cons, Parser.peek, List.headD_cons]
      split
      · rfl
      · exact items

theorem follows_items (ends : final.kind = .eof) (ih : FollowsExpressions final fuel)
    {closing : Kind} (goesOn : closing ≠ .eof) (what : Text) (unended : Unended given)
    (enough : 16 * given.length + 13 < fuel + 1) :
    Follows final (items (fuel + 1) closing what) (Parser.items final.pos closing what given) := by
  rw [items, Parser.items]
  refine follows_andThen (ih.expression given unended (by omega)) fun item rest suffix spent => ?_
  have shorter := spent rfl
  have unended := unended.suffix suffix
  have close :=
    follows_map (follows_expect ends unended goesOn (text "after " ++ what ++ text " list"))
    fun _ => [item]
  cases rest with
  | nil => exact follows_left (by simp [ends]) close
  | cons token more =>
      rw [List.length_cons] at shorter
      have others := ih.items closing what more goesOn unended.tail (by omega)
      exact follows_choice unended.head (follows_map others _) close

-- The induction is on the fuel; each client calls the others with less of it, and the bounds shrink
-- as those of the parsers do.
theorem follows_expressions (ends : final.kind = .eof) (fuel : Nat) :
    FollowsExpressions final fuel := by
  induction fuel with
  | zero => constructor <;> (intros; omega)
  | succ fuel ih =>
      exact {
        expression := fun _ => follows_expression ends ih
        disjunction := fun _ => follows_disjunction ih
        disjuncts := fun left _ => follows_disjuncts ends ih left
        conjunction := fun _ => follows_conjunction ends ih
        operation := fun tier _ => follows_operation ih tier
        operands := fun tier left _ => follows_operands ends ih tier left
        operand := fun tier _ => follows_operand ih tier
        unary := fun _ => follows_unary ends ih
        postfixed := fun _ => follows_postfixed ends ih
        suffixes := fun base _ => follows_suffixes ends ih base
        list := fun _ what _ goesOn => follows_list ends ih goesOn what
        items := fun _ what _ goesOn => follows_items ends ih goesOn what }

end Expressions

section Statements

variable {final token : Token} {given rest : List Token} {fuel : Nat}

theorem meets_consume_head (unended : Unended (token :: rest)) (goOn : Token → Asking α) :
    (consume >>= goOn).meets (before final (token :: rest)) =
      (goOn token).meets (before final rest) := by
  refine (meets_bind_silent (meets_consume _) goOn).trans ?_
  rw [moved_before unended.head]
  rfl

theorem meets_synchronize (ends : final.kind = .eof) (unended : Unended given)
    (enough : given.length < fuel) :
    (synchronize fuel).meets (before final given) =
      ((some (), (Parser.recover given).2), before final (Parser.recover given).1) := by
  induction given generalizing fuel with
  | nil =>
      obtain ⟨fuel, rfl⟩ := Nat.exists_eq_succ_of_ne_zero (Nat.ne_zero_of_lt enough)
      refine (meets_bind_silent (meets_peek _) _).trans ?_
      rw [current_before, List.headD_nil, ends]
      rfl
  | cons token rest ih =>
      obtain ⟨fuel, rfl⟩ := Nat.exists_eq_succ_of_ne_zero (Nat.ne_zero_of_lt enough)
      have onward := ih unended.tail (Nat.lt_of_succ_lt_succ enough)
      refine (meets_bind_silent (meets_peek _) _).trans ?_
      rw [current_before, List.headD_cons, Parser.recover.eq_def]
      dsimp only
      cases token.kind with
      | eof | rightBrace | ifWord | whileWord | varWord | constWord => rfl
      | semicolon => exact meets_consume_head unended _
      | illegal =>
          refine (meets_consume_head unended _).trans ((meets_bind_of_some rfl _).trans ?_)
          rw [onward]
          rfl
      | _ => exact (meets_consume_head unended _).trans onward

theorem meets_stepOver (ends : final.kind = .eof) (unended : Unended given) (start : Pos) :
    (stepOver start).meets (before final given) =
      ((some (), []), before final (Parser.stepOver start given)) := by
  refine (meets_bind_silent (meets_peek _) _).trans ?_
  rw [current_before]
  cases given with
  | nil =>
      rw [List.headD_nil, if_neg fun stands => stands.1 ends]
      rfl
  | cons token rest =>
      rw [List.headD_cons, Parser.stepOver]
      split
      · exact meets_consume_head unended _
      · rfl

theorem follows_definition (ends : final.kind = .eof) (unended : Unended (token :: rest))
    (enough : 16 * rest.length + 12 < fuel) :
    Follows final (definition fuel)
      (Step.after token (Parser.definition final.pos token rest) :
        Step Stmt true (token :: rest)) := by
  refine follows_consume unended.head ?_
  refine follows_andThen (follows_expect ends unended.tail (by decide) _) ?_
  intro name afterName suffix spent
  have shorter := spent rfl
  have later := unended.tail.suffix suffix
  refine follows_andThen (follows_expect ends later (by decide) _) ?_
  intro _ afterSign suffix' spent'
  have shorter' := spent' rfl
  have latest := later.suffix suffix'
  have initial := (follows_expressions ends fuel).expression afterSign latest (by omega)
  refine follows_andThen initial fun initial left suffix'' _ => ?_
  exact follows_map (follows_expect ends (latest.suffix suffix'') (by decide) _) _

theorem follows_simple (ends : final.kind = .eof) (unended : Unended given)
    (enough : 16 * given.length + 12 < fuel) :
    Follows final (simple fuel) (Parser.simple final.pos given) := by
  have start : (given.headD final).pos = (Parser.peek final.pos given).pos := by
    cases given <;> rfl
  refine follows_peek ?_
  rw [start]
  have expression := (follows_expressions ends fuel).expression given unended enough
  refine follows_andThen expression fun expr rest suffix _ => ?_
  exact follows_map (follows_expect ends (unended.suffix suffix) (by decide) _) _

/-- The same for statements. The bounds leave fuel for the expressions in them. -/
structure FollowsStatements (final : Token) (fuel : Nat) : Prop where
  statements : ∀ closing given, Unended given → 16 * given.length + 19 < fuel →
    Follows final (statements fuel closing) (Parser.statements final.pos closing given)
  statement : ∀ given, Unended given → 16 * given.length + 18 < fuel →
    Follows final (statement fuel) (Parser.statement final.pos given)
  conditional : ∀ token rest, Unended (token :: rest) → 16 * rest.length + 18 < fuel →
    Follows final (conditional fuel)
      (Step.after token (Parser.conditional final.pos token.pos rest) :
        Step Stmt true (token :: rest))
  alternative : ∀ given, Unended given → 16 * given.length + 17 < fuel →
    Follows final (alternative fuel) (Parser.alternative final.pos given)
  block : ∀ given, Unended given → 16 * given.length + 16 < fuel →
    Follows final (block fuel) (Parser.block final.pos given)

theorem follows_statements (ends : final.kind = .eof) (ih : FollowsStatements final fuel)
    (closing : Kind) (unended : Unended given) (enough : 16 * given.length + 19 < fuel + 1) :
    Follows final (statements (fuel + 1) closing)
      (Parser.statements final.pos closing given) := by
  rw [statements, Parser.statements.eq_def]
  refine follows_peek ?_
  cases given with
  | nil =>
      rw [List.headD_nil, if_pos (.inr ends)]
      exact follows_pure _ _ _
  | cons token rest =>
      rw [List.headD_cons]
      dsimp only
      by_cases stop : token.kind = closing ∨ token.kind = .eof
      · rw [if_pos stop, dif_pos stop]
        exact follows_pure _ _ _
      · rw [if_neg stop, dif_neg stop]
        have first := ih.statement (token :: rest) unended (by omega)
        generalize Parser.statement final.pos (token :: rest) = step at first ⊢
        have tried := meets_attempt (statement fuel) (before final (token :: rest))
        rw [first] at tried
        obtain ⟨result, left, issues, suffix, spent⟩ := step
        have later := unended.suffix suffix
        cases result with
        | some stmt =>
            have shorter := spent rfl rfl
            have others := ih.statements closing left later (by omega)
            refine (meets_bind_of_some tried _).trans ?_
            exact congrArg (fun found => ((found.1.1, issues ++ found.1.2), found.2))
              (follows_map others (stmt :: ·))
        | none =>
            have shorter := Parser.length_stepOver_recover_lt unended.head suffix
            have recovered := (Parser.recover_suffix left).trans suffix
            have onward := unended.suffix recovered
            have stepped := Parser.stepOver_suffix token.pos (Parser.recover left).1
            have others := ih.statements closing _ (onward.suffix stepped) (by omega)
            have length := suffix.length_le
            have synchronized : (synchronize fuel).meets (before final left) = _ :=
              meets_synchronize ends later (by omega)
            have stepping := meets_stepOver ends onward token.pos
            refine (meets_bind_of_some tried _).trans ?_
            dsimp only
            rw [meets_bind_of_some synchronized, meets_bind_silent stepping, others]
            rw [List.append_assoc]

theorem follows_statement (ends : final.kind = .eof) (ih : FollowsStatements final fuel)
    (unended : Unended given) (enough : 16 * given.length + 18 < fuel + 1) :
    Follows final (statement (fuel + 1)) (Parser.statement final.pos given) := by
  have simple := follows_simple ends unended (show 16 * given.length + 12 < fuel by omega)
  rw [statement, Parser.statement.eq_def]
  refine follows_peek ?_
  cases given with
  | nil =>
      rw [List.headD_nil, ends]
      exact simple
  | cons token rest =>
      have block := ih.block (token :: rest) unended (by omega)
      rw [List.headD_cons]
      rw [List.length_cons] at enough
      dsimp only
      cases token.kind with
      | ifWord => exact ih.conditional token rest unended (by omega)
      | whileWord =>
          refine follows_consume unended.head ?_
          have condition := (follows_expressions ends fuel).expression rest unended.tail (by omega)
          refine follows_andThen condition fun condition more suffix spent => ?_
          have shorter := spent rfl
          exact follows_map (ih.block more (unended.tail.suffix suffix) (by omega)) _
      | leftBrace => exact follows_map block _
      | varWord | constWord => exact follows_definition ends unended (by omega)
      | _ => exact simple

theorem follows_conditional (ends : final.kind = .eof) (ih : FollowsStatements final fuel)
    (unended : Unended (token :: rest)) (enough : 16 * rest.length + 18 < fuel + 1) :
    Follows final (conditional (fuel + 1))
      (Step.after token (Parser.conditional final.pos token.pos rest) :
        Step Stmt true (token :: rest)) := by
  rw [conditional, Parser.conditional]
  refine follows_consume unended.head ?_
  have condition := (follows_expressions ends fuel).expression rest unended.tail (by omega)
  refine follows_andThen condition fun condition afterCondition suffix spent => ?_
  have shorter := spent rfl
  have later := unended.tail.suffix suffix
  refine follows_andThen (ih.block afterCondition later (by omega))
    fun body more suffix' spent' => ?_
  have shorter' := spent' rfl
  have latest := later.suffix suffix'
  cases more with
  | nil => exact follows_left (by simp [ends]) (follows_pure _ _ _)
  | cons token left =>
      rw [List.length_cons] at shorter'
      have otherwise := ih.alternative left latest.tail (by omega)
      exact follows_choice latest.head (follows_map otherwise _) (follows_pure _ _ _)

theorem follows_alternative (ends : final.kind = .eof) (ih : FollowsStatements final fuel)
    (unended : Unended given) (enough : 16 * given.length + 17 < fuel + 1) :
    Follows final (alternative (fuel + 1)) (Parser.alternative final.pos given) := by
  have block := follows_map (ih.block given unended (by omega)) fun body => Stmt.block body.1 body.2
  rw [alternative, Parser.alternative.eq_def]
  refine follows_peek ?_
  cases given with
  | nil =>
      rw [List.headD_nil, if_neg (by simp [ends])]
      exact block
  | cons token rest =>
      rw [List.headD_cons]
      rw [List.length_cons] at enough
      dsimp only
      split
      · exact ih.conditional token rest unended (by omega)
      · exact block

theorem follows_block (ends : final.kind = .eof) (ih : FollowsStatements final fuel)
    (unended : Unended given) (enough : 16 * given.length + 16 < fuel + 1) :
    Follows final (block (fuel + 1)) (Parser.block final.pos given) := by
  rw [block, Parser.block]
  refine follows_andThen (follows_expect ends unended (by decide) _) ?_
  intro opening rest suffix spent
  have shorter := spent rfl
  have later := unended.suffix suffix
  refine follows_andThen (ih.statements .rightBrace rest later (by omega)) ?_
  intro body more suffix' _
  exact follows_map (follows_expect ends (later.suffix suffix') (by decide) _) _

theorem follows_every_statement (ends : final.kind = .eof) (fuel : Nat) :
    FollowsStatements final fuel := by
  induction fuel with
  | zero => constructor <;> (intros; omega)
  | succ fuel ih =>
      exact {
        statements := fun closing _ => follows_statements ends ih closing
        statement := fun _ => follows_statement ends ih
        conditional := fun _ _ => follows_conditional ends ih
        alternative := fun _ => follows_alternative ends ih
        block := fun _ => follows_block ends ih }

/-- With enough fuel the client reads the program that a list spells, or all its errors. -/
theorem run_program (ends : final.kind = .eof) (unended : Unended given)
    (enough : 16 * given.length + 19 < fuel) :
    (program fuel).run Cursor.answer (before final given) = parseTokens (given ++ [final]) := by
  have start : (given.headD final).pos = (Parser.peek final.pos given).pos := by
    cases given <;> rfl
  have body := (follows_every_statement ends fuel).statements .eof given unended enough
  have finish : parseTokens (given ++ [final]) = Parser.program final.pos given := by
    simp [parseTokens]
  rw [finish, Parser.program, ← start, ← current_before, Client.run_eq_exec]
  refine (congrArg Prod.fst (Client.exec_bind Cursor.answer (statements fuel .eof) _ _)).trans ?_
  exact congrArg (fun found => outcome (before final given).current.pos found.1) body

end Statements

end Asking

end Rover
