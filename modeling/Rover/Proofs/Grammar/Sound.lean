import Rover.Proofs.Grammar.Placed

/-!
What the parser reads without an error derives from the grammar, and the tree that it returns is the
tree of that derivation, each node at the place of its token.
-/

namespace Rover

open Rover.Parser

/-- A step without errors has read tokens that derive what it returns. -/
def Sound {α : Type} {strict : Bool} {given : List Token} (step : Step α strict given)
    (derives : List Token → α → Prop) : Prop :=
  step.issues = [] → ∃ value used, step.result = some value ∧ given = used ++ step.rest ∧
    derives used value

section Steps

variable {α β : Type} {strict laxer : Bool} {given : List Token}
  {derives : List Token → α → Prop} {onward : List Token → β → Prop}

theorem sound_done {value : α} (derived : derives [] value) : Sound (.done value given) derives :=
  fun _ => ⟨value, [], rfl, rfl, derived⟩

theorem sound_fail (issue : Diagnostic) :
    Sound (Step.fail issue given : Step α strict given) derives := by
  intro silent
  cases silent

theorem sound_refuse (finish : Pos) (expected : Text) :
    Sound (refuse finish expected given : Step α strict given) derives := by
  intro silent
  unfold refuse at silent
  split at silent
  · cases silent
  · split at silent <;> cases silent

theorem Sound.mono {step : Step α strict given} {wider : List Token → α → Prop}
    (sound : Sound step derives) (implies : ∀ used value, derives used value → wider used value) :
    Sound step wider := by
  intro silent
  obtain ⟨value, used, result, whole, derived⟩ := sound silent
  exact ⟨value, used, result, whole, implies used value derived⟩

theorem Sound.front {step : Step α strict given} (sound : Sound step derives) :
    Sound step fun used value => derives used value ∧ ∃ rest, given = used ++ rest := by
  intro silent
  obtain ⟨value, used, result, whole, derived⟩ := sound silent
  exact ⟨value, used, result, whole, derived, step.rest, whole⟩

theorem Sound.after {rest : List Token} {step : Step α laxer rest} {token : Token}
    (sound : Sound step fun used => derives (token :: used)) :
    Sound (step.after token : Step α strict (token :: rest)) derives := by
  intro silent
  obtain ⟨value, used, result, whole, derived⟩ := sound silent
  refine ⟨value, token :: used, result, ?_, derived⟩
  rw [List.cons_append]
  exact congrArg (token :: ·) whole

theorem Sound.map {step : Step α strict given} {convert : α → β} (sound : Sound step derives)
    (implies : ∀ used value, derives used value → onward used (convert value)) :
    Sound (step.map convert) onward := by
  intro silent
  obtain ⟨value, used, result, whole, derived⟩ := sound silent
  refine ⟨convert value, used, ?_, whole, implies used value derived⟩
  change step.result.map convert = _
  rw [result, Option.map_some]

theorem Sound.andThen {first : Step α strict given}
    {next : α → (rest : List Token) → rest <:+ given →
      (strict = true → rest.length < given.length) → Step β laxer rest}
    (begins : Sound first derives)
    (continues : ∀ value used rest suffix spent, derives used value →
      Sound (next value rest suffix spent) fun more => onward (used ++ more)) :
    Sound (first.andThen next) onward := by
  intro silent
  cases found : first.result with
  | none =>
      rw [Step.andThen_of_none next found] at silent
      obtain ⟨value, used, result, _⟩ := begins silent
      rw [found] at result
      cases result
  | some value =>
      obtain ⟨spent, result, rest, issues⟩ := Step.andThen_of_some next found
      rw [issues, List.append_eq_nil_iff] at silent
      obtain ⟨same, used, same', whole, derived⟩ := begins silent.1
      rw [found] at same'
      cases same'
      obtain ⟨final, more, finalResult, finalWhole, finalDerived⟩ :=
        continues value used first.rest first.suffix spent derived silent.2
      refine ⟨final, used ++ more, result.trans finalResult, ?_, finalDerived⟩
      rw [rest, List.append_assoc, ← finalWhole]
      exact whole

theorem sound_expect (finish : Pos) (kind : Kind) (context : Text) :
    Sound (expect finish kind context given)
      fun used token => used = [token] ∧ token.kind = kind := by
  unfold expect
  split
  · exact sound_refuse _ _
  · next token rest =>
      split
      · next same => exact fun _ => ⟨token, [token], rfl, rfl, rfl, same⟩
      · exact sound_refuse _ _

end Steps

mutual

theorem expression_sound (finish : Pos) (given : List Token) :
    Sound (expression finish given) (Placed (Derives .expression) (Stands .expression)) := by
  rw [expression]
  refine (disjunction_sound finish given).andThen fun left used rest _ spent placed => ?_
  have alone : Placed (Derives .expression) (Stands .expression) (used ++ []) left := by
    rw [List.append_nil]
    exact ⟨.valued placed.derived, placed.stands⟩
  cases rest with
  | nil => exact sound_done alone
  | cons token more =>
      have shorter : more.length + 1 < given.length := spent rfl
      dsimp only
      split
      · next assigns =>
          exact .after ((expression_sound finish more).map fun _ _ value =>
            ⟨.assigned placed.derived assigns value.derived,
              .binary placed.stands (congrArg Kind.name assigns) value.stands⟩)
      · exact sound_done alone
termination_by 16 * given.length + 12
decreasing_by all_goals omega

theorem disjunction_sound (finish : Pos) (given : List Token) :
    Sound (disjunction finish given) (Placed (Derives .disjunction) (Stands .expression)) := by
  rw [disjunction]
  refine (conjunction_sound finish given).andThen fun left used rest _ spent placed => ?_
  have shorter := spent rfl
  exact disjuncts_sound finish rest ⟨.disjunct placed.derived, placed.stands⟩
termination_by 16 * given.length + 11
decreasing_by all_goals omega

theorem disjuncts_sound (finish : Pos) {left : Expr} {before : List Token} (given : List Token)
    (placed : Placed (Derives .disjunction) (Stands .expression) before left) :
    Sound (disjuncts finish left given) fun used =>
      Placed (Derives .disjunction) (Stands .expression) (before ++ used) := by
  have alone : Placed (Derives .disjunction) (Stands .expression) (before ++ []) left := by
    rw [List.append_nil]
    exact placed
  rw [disjuncts.eq_def]
  cases given with
  | nil => exact sound_done alone
  | cons token rest =>
      dsimp only
      split
      · next isOr =>
          refine .after ((conjunction_sound finish rest).andThen fun right used more _ spent
            conjunct => ?_)
          have shorter := spent rfl
          have joined : Placed (Derives .disjunction) (Stands .expression) (before ++ token :: used)
              (.binary .or left right token.pos) :=
            ⟨.either placed.derived isOr conjunct.derived,
              .binary placed.stands (congrArg Kind.name isOr) conjunct.stands⟩
          apply (disjuncts_sound finish more joined).mono
          intro others expr whole
          simpa using whole
      · exact sound_done alone
termination_by 16 * given.length
decreasing_by all_goals (rw [List.length_cons]; omega)

theorem conjunction_sound (finish : Pos) (given : List Token) :
    Sound (conjunction finish given) (Placed (Derives .conjunction) (Stands .expression)) := by
  rw [conjunction]
  refine (operation_sound finish .equality given).andThen fun left used rest _ spent placed => ?_
  have alone : Placed (Derives .conjunction) (Stands .expression) (used ++ []) left := by
    rw [List.append_nil]
    exact ⟨.conjunct placed.derived, placed.stands⟩
  cases rest with
  | nil => exact sound_done alone
  | cons token more =>
      have shorter : more.length + 1 < given.length := spent rfl
      dsimp only
      split
      · next isAnd =>
          exact .after ((expression_sound finish more).map fun _ _ right =>
            ⟨.both placed.derived isAnd right.derived,
              .binary placed.stands (congrArg Kind.name isAnd) right.stands⟩)
      · exact sound_done alone
termination_by 16 * given.length + 10
decreasing_by all_goals ((try rw [Tier.height]); omega)

theorem operation_sound (finish : Pos) (tier : Tier) (given : List Token) :
    Sound (operation finish tier given)
      (Placed (Derives (.operation tier)) (Stands .expression)) := by
  rw [operation]
  refine (operand_sound finish tier given).andThen fun left used rest _ spent placed => ?_
  have shorter := spent rfl
  exact operands_sound finish rest ⟨placed.derived.operation, placed.stands⟩
termination_by 16 * given.length + 2 * tier.height + 3
decreasing_by all_goals omega

theorem operands_sound (finish : Pos) {tier : Tier} {left : Expr} {before : List Token}
    (given : List Token)
    (placed : Placed (Derives (.operation tier)) (Stands .expression) before left) :
    Sound (operands finish tier left given) fun used =>
      Placed (Derives (.operation tier)) (Stands .expression) (before ++ used) := by
  have alone : Placed (Derives (.operation tier)) (Stands .expression) (before ++ []) left := by
    rw [List.append_nil]
    exact placed
  rw [operands.eq_def]
  cases given with
  | nil => exact sound_done alone
  | cons token rest =>
      dsimp only
      split
      · next op found =>
          have joins := joins_iff.mpr found
          refine .after ((operand_sound finish tier rest).andThen fun right used more _ spent
            operand => ?_)
          have shorter := spent rfl
          have joined : Placed (Derives (.operation tier)) (Stands .expression)
              (before ++ token :: used) (.binary op left right token.pos) :=
            ⟨placed.derived.join token.pos joins operand.derived,
              .binary placed.stands joins.name operand.stands⟩
          apply (operands_sound finish more joined).mono
          intro others expr whole
          simpa using whole
      · exact sound_done alone
termination_by 16 * given.length
decreasing_by
  all_goals
    have := Tier.height_le tier
    rw [List.length_cons]
    omega

theorem operand_sound (finish : Pos) (tier : Tier) (given : List Token) :
    Sound (operand finish tier given) (Placed (DerivesOperand tier) (Stands .expression)) := by
  rw [operand.eq_def]
  cases tier with
  | equality => exact operation_sound finish .comparison given
  | comparison => exact operation_sound finish .sum given
  | sum => exact operation_sound finish .product given
  | product => exact unary_sound finish given
termination_by 16 * given.length + 2 * tier.height + 2
decreasing_by all_goals simp [Tier.height]

theorem unary_sound (finish : Pos) (given : List Token) :
    Sound (unary finish given) (Placed (Derives .unary) (Stands .expression)) := by
  rw [unary.eq_def]
  cases given with
  | nil =>
      exact (applied_sound finish []).mono fun _ _ placed =>
        ⟨.unsigned placed.derived, placed.stands⟩
  | cons token rest =>
      dsimp only
      split
      · next op found =>
          have signs := signs_iff.mpr found
          exact .after ((unary_sound finish rest).map fun _ _ operand =>
            ⟨.signed signs operand.derived, .unary signs.name operand.stands⟩)
      · exact (applied_sound finish (token :: rest)).mono fun _ _ placed =>
          ⟨.unsigned placed.derived, placed.stands⟩
termination_by 16 * given.length + 1
decreasing_by all_goals ((try rw [List.length_cons]); omega)

theorem applied_sound (finish : Pos) (given : List Token) :
    Sound (postfixed finish given) (Placed (Derives .applied) (Stands .expression)) := by
  rw [postfixed.eq_def]
  cases given with
  | nil => exact sound_refuse _ _
  | cons token rest =>
      dsimp only
      split
      · next kind => exact .after (suffixes_sound finish rest ⟨.bare (.int kind), .int kind⟩)
      · next kind => exact .after (suffixes_sound finish rest ⟨.bare (.float kind), .float kind⟩)
      · next kind => exact .after (suffixes_sound finish rest ⟨.bare (.string kind), .string kind⟩)
      · next kind => exact .after (suffixes_sound finish rest ⟨.bare (.name kind), .name kind⟩)
      · next kind =>
          refine .after ((expression_sound finish rest).andThen fun inner used more _ spent
            placed => ?_)
          refine (sound_expect finish .rightParen _).andThen fun closing last left _ spentToo
            closes => ?_
          obtain ⟨rfl, closes⟩ := closes
          have shorter := spent rfl
          have shorterToo := spentToo rfl
          have longer := suffixes_sound finish left
            ⟨.bare (.grouped kind placed.derived closes), .grouped kind placed.stands closes⟩
          apply longer.mono
          intro others expr whole
          simpa using whole
      · next kind =>
          refine .after ((list_sound finish .rightSquare _ rest).andThen fun elements used more _
            spent listed => ?_)
          obtain ⟨inner, closing, rfl, placed, closes⟩ := listed
          have shorter := spent rfl
          have built : Placed (Derives .applied) (Stands .expression) (token :: inner ++ [closing])
              (.array elements token.pos) :=
            ⟨.bare (.array kind placed.derived closes), .array kind placed.stands closes⟩
          apply (suffixes_sound finish more built).mono
          intro others expr whole
          simpa using whole
      · exact sound_refuse _ _
termination_by 16 * given.length
decreasing_by all_goals (rw [List.length_cons]; omega)

theorem suffixes_sound (finish : Pos) {base : Expr} {before : List Token} (given : List Token)
    (placed : Placed (Derives .applied) (Stands .expression) before base) :
    Sound (suffixes finish base given) fun used =>
      Placed (Derives .applied) (Stands .expression) (before ++ used) := by
  have alone : Placed (Derives .applied) (Stands .expression) (before ++ []) base := by
    rw [List.append_nil]
    exact placed
  rw [suffixes.eq_def]
  cases given with
  | nil => exact sound_done alone
  | cons token rest =>
      dsimp only
      split
      · next kind =>
          refine .after ((list_sound finish .rightParen _ rest).andThen fun arguments used more _
            spent listed => ?_)
          obtain ⟨inner, closing, rfl, items, closes⟩ := listed
          have shorter := spent rfl
          have called : Placed (Derives .applied) (Stands .expression)
              (before ++ token :: inner ++ [closing]) (.call base arguments base.pos) :=
            ⟨.call placed.derived kind items.derived closes,
              .call placed.stands kind items.stands closes⟩
          apply (suffixes_sound finish more called).mono
          intro others expr whole
          simpa using whole
      · next kind =>
          refine .after ((expression_sound finish rest).andThen fun position used more _ spent
            index => ?_)
          refine (sound_expect finish .rightSquare _).andThen fun closing last left _ spentToo
            closes => ?_
          obtain ⟨rfl, closes⟩ := closes
          have shorter := spent rfl
          have shorterToo := spentToo rfl
          have indexed : Placed (Derives .applied) (Stands .expression)
              (before ++ token :: used ++ [closing]) (.index base position token.pos) :=
            ⟨.index placed.derived kind index.derived closes,
              .index placed.stands kind index.stands closes⟩
          apply (suffixes_sound finish left indexed).mono
          intro others expr whole
          simpa using whole
      · exact sound_done alone
termination_by 16 * given.length
decreasing_by all_goals (rw [List.length_cons]; omega)

theorem list_sound (finish : Pos) (closing : Kind) (what : Text) (given : List Token) :
    Sound (list finish closing what given) fun used trees => ∃ inner final,
      used = inner ++ [final] ∧ Placed (Derives .list) (Stands .list) inner trees ∧
        final.kind = closing := by
  rw [list]
  split
  · exact sound_fail _
  · exact items_sound finish closing what given
termination_by 16 * given.length + 14
decreasing_by all_goals omega

theorem items_sound (finish : Pos) (closing : Kind) (what : Text) (given : List Token) :
    Sound (items finish closing what given) fun used trees => ∃ inner final,
      used = inner ++ [final] ∧ Placed (Derives .list) (Stands .list) inner trees ∧
        final.kind = closing := by
  rw [items]
  refine (expression_sound finish given).andThen fun item used rest _ spent placed => ?_
  have single : Placed (Derives .list) (Stands .list) used [item] :=
    ⟨.item placed.derived, .item placed.stands⟩
  cases rest with
  | nil =>
      refine (sound_expect finish closing _).map fun last final closes => ?_
      obtain ⟨rfl, closes⟩ := closes
      exact ⟨used, final, rfl, single, closes⟩
  | cons token more =>
      have shorter : more.length + 1 < given.length := spent rfl
      dsimp only
      split
      · next comma =>
          refine .after ((items_sound finish closing what more).map fun others trees found => ?_)
          obtain ⟨inner, final, rfl, following, closes⟩ := found
          exact ⟨used ++ token :: inner, final, by simp,
            ⟨.items placed.derived comma following.derived,
              .items placed.stands comma following.stands⟩, closes⟩
      · refine (sound_expect finish closing _).map fun last final closes => ?_
        obtain ⟨rfl, closes⟩ := closes
        exact ⟨used, final, rfl, single, closes⟩
termination_by 16 * given.length + 13
decreasing_by all_goals omega

end

theorem definition_keyword {keyword : Token}
    (kind : keyword.kind = .varWord ∨ keyword.kind = .constWord) :
    keyword.kind = if decide (keyword.kind = .constWord) then .constWord else .varWord := by
  rcases kind with isVar | isConst
  · rw [isVar]
    rfl
  · rw [isConst]
    rfl

theorem definition_sound (finish : Pos) {keyword : Token} (given : List Token)
    (kind : keyword.kind = .varWord ∨ keyword.kind = .constWord) :
    Sound (definition finish keyword given) fun used =>
      Placed (Derives .statement) (Stands .statement) (keyword :: used) := by
  unfold definition
  refine (sound_expect finish .identifier _).andThen fun name used afterName _ _ named => ?_
  refine (sound_expect finish .assign _).andThen fun sign used' afterSign _ _ signed => ?_
  refine (expression_sound finish afterSign).andThen fun initial tokens rest _ _ placed => ?_
  refine (sound_expect finish .semicolon _).map fun last final ends => ?_
  obtain ⟨rfl, named⟩ := named
  obtain ⟨rfl, signed⟩ := signed
  obtain ⟨rfl, ends⟩ := ends
  have keywordKind := definition_keyword kind
  exact ⟨.definition keywordKind named signed placed.derived ends,
    .define keywordKind named signed placed.stands ends⟩

theorem simple_sound (finish : Pos) (given : List Token) :
    Sound (simple finish given) (Placed (Derives .statement) (Stands .statement)) := by
  unfold simple
  refine (expression_sound finish given).front.andThen fun expr used rest _ _ found => ?_
  refine (sound_expect finish .semicolon _).map fun last final ends => ?_
  obtain ⟨rfl, ends⟩ := ends
  obtain ⟨placed, left, rfl⟩ := found
  cases used with
  | nil => exact absurd rfl placed.stands.ne_nil
  | cons first others => exact ⟨.effect placed.derived ends, .eval placed.stands ends⟩

mutual

theorem statements_sound (finish : Pos) (closing : Kind) (given : List Token) :
    Sound (statements finish closing given)
      (Placed (Derives .statements) (Stands .statements)) := by
  have nothing : Placed (Derives .statements) (Stands .statements) [] [] := ⟨.none, .none⟩
  rw [statements.eq_def]
  cases given with
  | nil => exact sound_done nothing
  | cons token rest =>
      dsimp only
      split
      · exact sound_done nothing
      · have begins := statement_sound finish (token :: rest)
        split
        · next stmt left issues suffix spent found =>
            rw [found] at begins
            have shorter : left.length < rest.length + 1 := spent rfl rfl
            have others := statements_sound finish closing left
            intro silent
            obtain ⟨silentHere, silentLater⟩ := List.append_eq_nil_iff.mp silent
            obtain ⟨value, used, ⟨⟩, whole, placed⟩ := begins silentHere
            obtain ⟨stmts, more, result, wholeMore, placedMore⟩ := others silentLater
            refine ⟨stmt :: stmts, used ++ more, ?_, ?_,
              ⟨.more placed.derived placedMore.derived, .more placed.stands placedMore.stands⟩⟩
            · dsimp only
              rw [result, Option.map_some]
            · dsimp only at whole ⊢
              rw [List.append_assoc, ← wholeMore]
              exact whole
        · next left issues suffix spent found =>
            -- a statement that fails has an error to show for it
            rw [found] at begins
            intro silent
            obtain ⟨silentHere, _⟩ := List.append_eq_nil_iff.mp (List.append_eq_nil_iff.mp silent).1
            obtain ⟨_, _, failed, _⟩ := begins silentHere
            cases failed
termination_by 16 * given.length + 3
decreasing_by all_goals (rw [List.length_cons]; omega)

theorem statement_sound (finish : Pos) (given : List Token) :
    Sound (statement finish given) (Placed (Derives .statement) (Stands .statement)) := by
  rw [statement.eq_def]
  cases given with
  | nil => exact simple_sound finish []
  | cons token rest =>
      dsimp only
      split
      · next kind =>
          refine .after ((conditional_sound finish token.pos rest).mono fun _ _ placed => ?_)
          obtain ⟨derived, stands⟩ := placed token kind rfl
          exact ⟨.branch derived, stands⟩
      · next kind =>
          refine .after ((expression_sound finish rest).andThen fun condition used more _ spent
            placed => ?_)
          have shorter := spent rfl
          exact (block_sound finish more).map fun _ _ inner =>
            ⟨.loop kind placed.derived inner.derived, .loop kind placed.stands inner.stands⟩
      · exact (block_sound finish (token :: rest)).map fun _ _ placed =>
          ⟨.nested placed.derived, .nested placed.stands⟩
      · next kind => exact .after (definition_sound finish rest (.inl kind))
      · next kind => exact .after (definition_sound finish rest (.inr kind))
      · exact simple_sound finish (token :: rest)
termination_by 16 * given.length + 2
decreasing_by all_goals (rw [List.length_cons]; omega)

theorem conditional_sound (finish start : Pos) (given : List Token) :
    Sound (conditional finish start given) fun used stmt =>
      ∀ word : Token, word.kind = .ifWord → word.pos = start →
        Placed (Derives .conditional) (Stands .statement) (word :: used) stmt := by
  rw [conditional]
  refine (expression_sound finish given).andThen fun condition test rest _ spent placed => ?_
  have shorter := spent rfl
  refine (block_sound finish rest).andThen fun body inner more _ spentToo block => ?_
  have alone (word : Token) (kind : word.kind = .ifWord) (here : word.pos = start) :
      Placed (Derives .conditional) (Stands .statement) (word :: (test ++ (inner ++ [])))
        (.cond condition body.1 body.2 .absent start) := by
    rw [List.append_nil, ← here]
    exact ⟨.single kind placed.derived block.derived, .single kind placed.stands block.stands⟩
  cases more with
  | nil => exact sound_done alone
  | cons token left =>
      have shorterToo : left.length + 1 < rest.length := spentToo rfl
      dsimp only
      split
      · next isElse =>
          refine .after ((alternative_sound finish left).map
            fun last otherwise other word kind here => ?_)
          subst here
          obtain ⟨either, standing⟩ := other
          have stands : Stands .statement (word :: test ++ inner ++ token :: last)
              (.cond condition body.1 body.2 otherwise word.pos) :=
            .double kind placed.stands block.stands isElse standing
          have derived : Derives .conditional (word :: test ++ inner ++ token :: last)
              (.cond condition body.1 body.2 otherwise word.pos) := by
            rcases either with chained | ⟨stmts, pos, rfl, double⟩
            · exact .chained kind placed.derived block.derived isElse chained
            · exact .double kind placed.derived block.derived isElse double
          exact ⟨by simpa using derived, by simpa using stands⟩
      · exact sound_done alone
termination_by 16 * given.length + 2
decreasing_by all_goals omega

theorem alternative_sound (finish : Pos) (given : List Token) :
    Sound (alternative finish given) (Placed
      (fun used stmt => Derives .conditional used stmt ∨
        ∃ body pos, stmt = .block body pos ∧ Derives .block used body)
      (Stands .statement)) := by
  rw [alternative.eq_def]
  cases given with
  | nil =>
      exact (block_sound finish []).map fun _ body placed =>
        ⟨.inr ⟨body.1, body.2, rfl, placed.derived⟩, .nested placed.stands⟩
  | cons token rest =>
      dsimp only
      split
      · next kind =>
          refine .after ((conditional_sound finish token.pos rest).mono fun _ _ placed => ?_)
          obtain ⟨derived, stands⟩ := placed token kind rfl
          exact ⟨.inl derived, stands⟩
      · exact (block_sound finish (token :: rest)).map fun _ body placed =>
          ⟨.inr ⟨body.1, body.2, rfl, placed.derived⟩, .nested placed.stands⟩
termination_by 16 * given.length + 1
decreasing_by all_goals ((try rw [List.length_cons]); omega)

theorem block_sound (finish : Pos) (given : List Token) :
    Sound (block finish given)
      (Placed (fun used body => Derives .block used body.1) (Stands .block)) := by
  rw [block]
  refine (sound_expect finish .leftBrace _).andThen fun opening used rest _ spent opens => ?_
  have shorter := spent rfl
  refine (statements_sound finish .rightBrace rest).andThen fun body inner more _ _ placed => ?_
  refine (sound_expect finish .rightBrace _).map fun last closing closes => ?_
  obtain ⟨rfl, opens⟩ := opens
  obtain ⟨rfl, closes⟩ := closes
  exact ⟨.braced opens placed.derived closes, .braced opens placed.stands closes⟩
termination_by 16 * given.length
decreasing_by all_goals omega

end

end Rover
