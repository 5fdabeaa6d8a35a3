import Rover.Proofs.Grammar.Precedence
import Rover.Proofs.Grammar.Sound

/-!
How expressions fail. A step on an expression has no error, or it has one: it refuses a token, and
what it read before that token is the beginning of an expression. Nothing is read twice and no error
is taken back, so this follows the recursion of the parser.
-/

namespace Rover

open Rover.Parser

/-- Some kinds, none of them an end of file, are such that whatever tokens of these kinds come next,
the whole derives. -/
def Begins {α : Type} (derives : List Token → α → Prop) (used : List Token) : Prop :=
  ∃ kinds : List Kind, Kind.eof ∉ kinds ∧ ∀ more : List Token, more.map Token.kind = kinds →
    ∃ tree, derives (used ++ more) tree

section Begins

variable {α β : Type} {derives : List Token → α → Prop} {onward : List Token → β → Prop}
  {used : List Token}

theorem Begins.complete (begins : Begins derives used) (kinds : List Kind)
    (goesOn : Kind.eof ∉ kinds)
    (whole : ∀ tokens tree more, derives tokens tree → more.map Token.kind = kinds →
      ∃ result, onward (tokens ++ more) result) : Begins onward used := by
  obtain ⟨needed, goesOnNeeded, completes⟩ := begins
  refine ⟨needed ++ kinds, ?_, fun more same => ?_⟩
  · rw [List.mem_append]
    exact fun inside => inside.elim goesOnNeeded goesOn
  obtain ⟨first, second, rfl, sameFirst, sameSecond⟩ := List.map_eq_append_iff.mp same
  obtain ⟨tree, derived⟩ := completes first sameFirst
  rw [← List.append_assoc]
  exact whole _ tree second derived sameSecond

theorem Begins.mono (begins : Begins derives used)
    (whole : ∀ tokens tree, derives tokens tree → ∃ result, onward tokens result) :
    Begins onward used := by
  refine begins.complete [] List.not_mem_nil fun tokens tree more derived same => ?_
  rw [List.map_eq_nil_iff.mp same, List.append_nil]
  exact whole tokens tree derived

theorem Begins.close (begins : Begins derives used) (kind : Kind) (goesOn : kind ≠ .eof)
    (whole : ∀ tokens tree token, derives tokens tree → token.kind = kind →
      ∃ result, onward (tokens ++ [token]) result) : Begins onward used := by
  refine begins.complete [kind] (by simpa using goesOn.symm) fun tokens tree more derived same => ?_
  obtain ⟨token, rfl, closes⟩ := List.map_eq_singleton_iff.mp same
  exact whole tokens tree token derived closes

theorem begins_single (kind : Kind) (goesOn : kind ≠ .eof)
    (whole : ∀ token : Token, token.kind = kind → ∃ tree, derives [token] tree) :
    Begins derives [] := by
  refine ⟨[kind], by simpa using goesOn.symm, fun more same => ?_⟩
  obtain ⟨token, rfl, isKind⟩ := List.map_eq_singleton_iff.mp same
  exact whole token isKind

theorem Begins.onto (before : List Token)
    (begins : Begins (fun more => derives (before ++ more)) used) :
    Begins derives (before ++ used) := by
  obtain ⟨kinds, goesOn, completes⟩ := begins
  refine ⟨kinds, goesOn, fun more same => ?_⟩
  rw [List.append_assoc]
  exact completes more same

end Begins

/-- A token that is not what is expected. -/
def Diagnostic.unexpected (expected : Text) (token : Token) : Diagnostic :=
  ⟨text "expected " ++ expected ++ text ", found " ++ token.shown, token.pos⟩

/-- The next token is refused. It is used up if it is illegal, and only then. -/
inductive Refusal (finish : Pos) : (left rest : List Token) → Diagnostic → Prop
  | illegal {token : Token} {rest : List Token} :
      token.kind = .illegal → Refusal finish (token :: rest) rest ⟨token.text, token.pos⟩
  | unexpected {left : List Token} {expected : Text} :
      (peek finish left).kind ≠ .illegal →
        Refusal finish left left (.unexpected expected (peek finish left))

/-- A step has no error, or one and no result: a token was refused behind a beginning. -/
structure Halts {α : Type} {strict : Bool} {given : List Token} (finish : Pos)
    (derives : List Token → α → Prop) (step : Step α strict given) : Prop where
  silent : ∀ value, step.result = some value → step.issues = []
  refused : step.result = none → ∃ used left issue, given = used ++ left ∧
    step.issues = [issue] ∧ Refusal finish left step.rest issue ∧ Begins derives used

section Steps

variable {α β : Type} {strict laxer : Bool} {given : List Token} {finish : Pos}
  {derives : List Token → α → Prop} {onward : List Token → β → Prop}

theorem halts_done (value : α) : Halts finish derives (.done value given) :=
  ⟨fun _ _ => rfl, nofun⟩

theorem Refusal.pos {left rest : List Token} {issue : Diagnostic}
    (refusal : Refusal finish left rest issue) : issue.pos = (peek finish left).pos := by
  cases refusal with
  | illegal => rfl
  | unexpected => rfl

theorem refuse_cons (expected : Text) (token : Token) (rest : List Token) :
    (refuse finish expected (token :: rest) : Step α strict (token :: rest)).outcome =
      if token.kind = .illegal then (none, rest, [⟨token.text, token.pos⟩])
      else (none, token :: rest, [.unexpected expected token]) := by
  rw [refuse]
  split <;> rfl

theorem refusal_refuse (expected : Text) :
    ∃ issue rest, (refuse finish expected given : Step α strict given).outcome =
      (none, rest, [issue]) ∧ Refusal finish given rest issue := by
  cases given with
  | nil => exact ⟨_, [], rfl, .unexpected nofun⟩
  | cons token rest =>
      rw [refuse_cons]
      split
      · next isIllegal => exact ⟨_, rest, rfl, .illegal isIllegal⟩
      · next legal => exact ⟨_, token :: rest, rfl, .unexpected legal⟩

theorem halts_refuse (expected : Text) (begins : Begins derives []) :
    Halts finish derives (refuse finish expected given : Step α strict given) := by
  obtain ⟨issue, rest, failed, refusal⟩ : ∃ issue rest,
      (refuse finish expected given : Step α strict given).outcome = (none, rest, [issue]) ∧
        Refusal finish given rest issue := refusal_refuse expected
  simp only [Step.outcome, Prod.mk.injEq] at failed
  obtain ⟨result, rfl, issues⟩ := failed
  refine ⟨fun value found => ?_, fun _ => ⟨[], given, issue, rfl, issues, refusal, begins⟩⟩
  cases result.symm.trans found

theorem Halts.after {rest : List Token} {step : Step α laxer rest} {token : Token}
    (halts : Halts finish (fun used => derives (token :: used)) step) :
    Halts finish derives (step.after token : Step α strict (token :: rest)) := by
  refine ⟨halts.silent, fun failed => ?_⟩
  obtain ⟨used, left, issue, rfl, issues, refusal, begins⟩ := halts.refused failed
  exact ⟨token :: used, left, issue, rfl, issues, refusal, begins.onto [token]⟩

theorem Halts.mono {step : Step α strict given} {wider : List Token → α → Prop}
    (halts : Halts finish derives step)
    (implies : ∀ used value, derives used value → wider used value) : Halts finish wider step := by
  refine ⟨halts.silent, fun failed => ?_⟩
  obtain ⟨used, left, issue, whole, issues, refusal, begins⟩ := halts.refused failed
  exact ⟨used, left, issue, whole, issues, refusal,
    begins.mono fun tokens tree derived => ⟨tree, implies tokens tree derived⟩⟩

theorem Halts.map {step : Step α strict given} {convert : α → β} (halts : Halts finish derives step)
    (implies : ∀ used value, derives used value → ∃ result, onward used result) :
    Halts finish onward (step.map convert) := by
  refine ⟨fun value found => ?_, fun failed => ?_⟩
  · obtain ⟨original, found, _⟩ := Option.map_eq_some_iff.mp found
    exact halts.silent original found
  · obtain ⟨used, left, issue, whole, issues, refusal, begins⟩ :=
      halts.refused (Option.map_eq_none_iff.mp failed)
    exact ⟨used, left, issue, whole, issues, refusal, begins.mono implies⟩

theorem Halts.andThen {first : Step α strict given}
    {next : α → (rest : List Token) → rest <:+ given →
      (strict = true → rest.length < given.length) → Step β laxer rest}
    (halts : Halts finish derives first) (sound : Sound first derives)
    (completes : ∀ used, Begins derives used → Begins onward used)
    (continues : ∀ value used rest suffix spent, derives used value →
      Halts finish (fun more => onward (used ++ more)) (next value rest suffix spent)) :
    Halts finish onward (first.andThen next) := by
  cases found : first.result with
  | none =>
      obtain ⟨used, left, issue, whole, issues, refusal, begins⟩ := halts.refused found
      obtain ⟨result, rest, issues', suffix, spent⟩ := first
      dsimp only at found
      subst found
      exact ⟨nofun, fun _ => ⟨used, left, issue, whole, issues, refusal, completes used begins⟩⟩
  | some value =>
      have silent := halts.silent value found
      obtain ⟨same, used, same', whole, derived⟩ := sound silent
      cases found.symm.trans same'
      obtain ⟨spent, result, rest, issues⟩ := Step.andThen_of_some next found
      have later := continues value used first.rest first.suffix spent derived
      refine ⟨fun final finished => ?_, fun failed => ?_⟩
      · rw [issues, silent]
        exact later.silent final (result.symm.trans finished)
      · obtain ⟨more, left, issue, same, single, refusal, begins⟩ :=
          later.refused (result.symm.trans failed)
        refine ⟨used ++ more, left, issue, ?_, ?_, rest ▸ refusal, begins.onto used⟩
        · rw [List.append_assoc, ← same]
          exact whole
        · rw [issues, silent, single]
          rfl

theorem halts_expect {kind : Kind} (context : Text) (goesOn : kind ≠ .eof) :
    Halts finish (fun used token => used = [token] ∧ token.kind = kind)
      (expect finish kind context given) := by
  have begins : Begins (fun used (token : Token) => used = [token] ∧ token.kind = kind) [] :=
    begins_single kind goesOn fun token same => ⟨token, rfl, same⟩
  unfold expect
  split
  · exact halts_refuse _ begins
  · split
    · exact ⟨fun _ _ => rfl, fun failed => by cases failed⟩
    · exact halts_refuse _ begins

end Steps

def DerivesClosed (closing : Kind) (used : List Token) (exprs : List Expr) : Prop :=
  ∃ inner final, used = inner ++ [final] ∧ Derives .list inner exprs ∧ final.kind = closing

theorem Sound.derived {α : Type} {strict : Bool} {given : List Token} {step : Step α strict given}
    {derives stands : List Token → α → Prop} (sound : Sound step (Placed derives stands)) :
    Sound step derives :=
  sound.mono fun _ _ placed => placed.derived

theorem list_derives (finish : Pos) (closing : Kind) (what : Text) (given : List Token) :
    Sound (list finish closing what given) (DerivesClosed closing) := by
  apply (list_sound finish closing what given).mono
  rintro _ exprs ⟨inner, final, rfl, placed, closes⟩
  exact ⟨inner, final, rfl, placed.derived, closes⟩

theorem derives_name {token : Token} (named : token.kind = .identifier) :
    Derives .applied [token] (.name token.text token.pos) :=
  .bare (.name named)

theorem derives_expression_name {token : Token} (named : token.kind = .identifier) :
    Derives .expression [token] (.name token.text token.pos) :=
  .valued (.disjunct (.conjunct (.equality (.comparison (.sum (.product
    (.unsigned (derives_name named))))))))

theorem begins_closed (closing : Kind) (goesOn : closing ≠ .eof) :
    Begins (DerivesClosed closing) [] := by
  refine ⟨[.identifier, closing], by simpa using goesOn.symm, fun more same => ?_⟩
  obtain ⟨name, rest, rfl, named, sameRest⟩ := List.map_eq_cons_iff.mp same
  obtain ⟨final, rfl, closes⟩ := List.map_eq_singleton_iff.mp sameRest
  exact ⟨_, [name], final, rfl, .item (derives_expression_name named), closes⟩

section Expressions

variable (finish : Pos)

mutual

theorem expression_halts (given : List Token) :
    Halts finish (Derives .expression) (expression finish given) := by
  rw [expression]
  refine (disjunction_halts given).andThen (disjunction_sound finish given).derived
    (fun _ begins => begins.mono fun _ tree derived => ⟨tree, .valued derived⟩)
    fun left used rest _ spent derived => ?_
  cases rest with
  | nil => exact halts_done left
  | cons token more =>
      have shorter : more.length + 1 < given.length := spent rfl
      dsimp only
      split
      · next assigns =>
          exact .after ((expression_halts more).map fun _ right value =>
            ⟨.binary .assign left right token.pos, .assigned derived assigns value⟩)
      · exact halts_done left
termination_by 16 * given.length + 12
decreasing_by all_goals omega

theorem disjunction_halts (given : List Token) :
    Halts finish (Derives .disjunction) (disjunction finish given) := by
  rw [disjunction]
  refine (conjunction_halts given).andThen (conjunction_sound finish given).derived
    (fun _ begins => begins.mono fun _ tree derived => ⟨tree, .disjunct derived⟩)
    fun left used rest _ spent derived => ?_
  have shorter := spent rfl
  exact disjuncts_halts rest (.disjunct derived)
termination_by 16 * given.length + 11
decreasing_by all_goals omega

theorem disjuncts_halts {left : Expr} {before : List Token} (given : List Token)
    (derived : Derives .disjunction before left) :
    Halts finish (fun used => Derives .disjunction (before ++ used))
      (disjuncts finish left given) := by
  rw [disjuncts.eq_def]
  cases given with
  | nil => exact halts_done left
  | cons token rest =>
      dsimp only
      split
      · next isOr =>
          refine .after ((conjunction_halts rest).andThen (conjunction_sound finish rest).derived
            (fun _ begins => begins.mono fun _ right conjunct =>
              ⟨.binary .or left right token.pos, .either derived isOr conjunct⟩)
            fun right used more _ spent conjunct => ?_)
          have shorter := spent rfl
          have joined : Derives .disjunction (before ++ token :: used)
              (.binary .or left right token.pos) := .either derived isOr conjunct
          apply (disjuncts_halts more joined).mono
          intro others expr whole
          simpa using whole
      · exact halts_done left
termination_by 16 * given.length
decreasing_by all_goals (rw [List.length_cons]; omega)

theorem conjunction_halts (given : List Token) :
    Halts finish (Derives .conjunction) (conjunction finish given) := by
  rw [conjunction]
  refine (operation_halts .equality given).andThen (operation_sound finish .equality given).derived
    (fun _ begins => begins.mono fun _ tree derived => ⟨tree, .conjunct derived⟩)
    fun left used rest _ spent derived => ?_
  cases rest with
  | nil => exact halts_done left
  | cons token more =>
      have shorter : more.length + 1 < given.length := spent rfl
      dsimp only
      split
      · next isAnd =>
          exact .after ((expression_halts more).map fun _ right value =>
            ⟨.binary .and left right token.pos, .both derived isAnd value⟩)
      · exact halts_done left
termination_by 16 * given.length + 10
decreasing_by all_goals ((try rw [Tier.height]); omega)

theorem operation_halts (tier : Tier) (given : List Token) :
    Halts finish (Derives (.operation tier)) (operation finish tier given) := by
  rw [operation]
  refine (operand_halts tier given).andThen (operand_sound finish tier given).derived
    (fun _ begins => begins.mono fun _ tree derived => ⟨tree, derived.operation⟩)
    fun left used rest _ spent derived => ?_
  have shorter := spent rfl
  exact operands_halts rest derived.operation
termination_by 16 * given.length + 2 * tier.height + 3
decreasing_by all_goals omega

theorem operands_halts {tier : Tier} {left : Expr} {before : List Token} (given : List Token)
    (derived : Derives (.operation tier) before left) :
    Halts finish (fun used => Derives (.operation tier) (before ++ used))
      (operands finish tier left given) := by
  rw [operands.eq_def]
  cases given with
  | nil => exact halts_done left
  | cons token rest =>
      dsimp only
      split
      · next op found =>
          have joins := joins_iff.mpr found
          refine .after ((operand_halts tier rest).andThen (operand_sound finish tier rest).derived
            (fun _ begins => begins.mono fun _ right operand =>
              ⟨.binary op left right token.pos, derived.join token.pos joins operand⟩)
            fun right used more _ spent operand => ?_)
          have shorter := spent rfl
          apply (operands_halts more (derived.join token.pos joins operand)).mono
          intro others expr whole
          simpa using whole
      · exact halts_done left
termination_by 16 * given.length
decreasing_by
  all_goals
    have := Tier.height_le tier
    rw [List.length_cons]
    omega

theorem operand_halts (tier : Tier) (given : List Token) :
    Halts finish (DerivesOperand tier) (operand finish tier given) := by
  rw [operand.eq_def]
  cases tier with
  | equality => exact operation_halts .comparison given
  | comparison => exact operation_halts .sum given
  | sum => exact operation_halts .product given
  | product => exact unary_halts given
termination_by 16 * given.length + 2 * tier.height + 2
decreasing_by all_goals simp [Tier.height]

theorem unary_halts (given : List Token) : Halts finish (Derives .unary) (unary finish given) := by
  rw [unary.eq_def]
  cases given with
  | nil => exact (postfixed_halts []).mono fun _ _ derived => .unsigned derived
  | cons token rest =>
      dsimp only
      split
      · next op found =>
          exact .after ((unary_halts rest).map fun _ operand derived =>
            ⟨.unary op operand token.pos, .signed (signs_iff.mpr found) derived⟩)
      · exact (postfixed_halts (token :: rest)).mono fun _ _ derived => .unsigned derived
termination_by 16 * given.length + 1
decreasing_by all_goals ((try rw [List.length_cons]); omega)

theorem postfixed_halts (given : List Token) :
    Halts finish (Derives .applied) (postfixed finish given) := by
  have begins : Begins (Derives .applied) [] :=
    begins_single .identifier (by decide) fun token named => ⟨_, derives_name named⟩
  rw [postfixed.eq_def]
  cases given with
  | nil => exact halts_refuse _ begins
  | cons token rest =>
      dsimp only
      split
      · next kind => exact .after (suffixes_halts rest (.bare (.int kind)))
      · next kind => exact .after (suffixes_halts rest (.bare (.float kind)))
      · next kind => exact .after (suffixes_halts rest (.bare (.string kind)))
      · next kind => exact .after (suffixes_halts rest (.bare (.name kind)))
      · next kind =>
          refine .after ((expression_halts rest).andThen (expression_sound finish rest).derived
            (fun _ begins => begins.close .rightParen (by decide) fun _ inner _ derived closes =>
              ⟨inner, .bare (.grouped kind derived closes)⟩)
            fun inner used more _ spent derived => ?_)
          refine (halts_expect _ (by decide)).andThen (sound_expect finish .rightParen _)
            (fun _ begins => begins.mono fun _ _ closes => ?_)
            fun closing last left _ spentToo closes => ?_
          · obtain ⟨rfl, closes⟩ := closes
            exact ⟨inner, .bare (.grouped kind derived closes)⟩
          · obtain ⟨rfl, closes⟩ := closes
            have shorter := spent rfl
            have shorterToo := spentToo rfl
            apply (suffixes_halts left (.bare (.grouped kind derived closes))).mono
            intro others expr whole
            simpa using whole
      · next kind =>
          refine .after ((list_halts .rightSquare _ rest (by decide) (by decide)).andThen
            (list_derives finish .rightSquare _ rest)
            (fun _ begins => begins.mono fun _ _ listed => ?_)
            fun elements used more _ spent listed => ?_)
          · obtain ⟨inner, closing, rfl, derived, closes⟩ := listed
            exact ⟨.array _ token.pos, .bare (.array kind derived closes)⟩
          · obtain ⟨inner, closing, rfl, derived, closes⟩ := listed
            have shorter := spent rfl
            have built : Derives .applied (token :: inner ++ [closing])
                (.array elements token.pos) := .bare (.array kind derived closes)
            apply (suffixes_halts more built).mono
            intro others expr whole
            simpa using whole
      · exact halts_refuse _ begins
termination_by 16 * given.length
decreasing_by all_goals (rw [List.length_cons]; omega)

theorem suffixes_halts {base : Expr} {before : List Token} (given : List Token)
    (derived : Derives .applied before base) :
    Halts finish (fun used => Derives .applied (before ++ used)) (suffixes finish base given) := by
  rw [suffixes.eq_def]
  cases given with
  | nil => exact halts_done base
  | cons token rest =>
      dsimp only
      split
      · next kind =>
          have call {inner : List Token} {closing : Token} {arguments : List Expr}
              (listed : Derives .list inner arguments) (closes : closing.kind = .rightParen) :
              Derives .applied (before ++ token :: inner ++ [closing])
                (.call base arguments base.pos) := .call derived kind listed closes
          refine .after ((list_halts .rightParen _ rest (by decide) (by decide)).andThen
            (list_derives finish .rightParen _ rest)
            (fun _ begins => begins.mono fun _ _ listed => ?_)
            fun arguments used more _ spent listed => ?_)
          · obtain ⟨inner, closing, rfl, listed, closes⟩ := listed
            exact ⟨_, by simpa using call listed closes⟩
          · obtain ⟨inner, closing, rfl, listed, closes⟩ := listed
            have shorter := spent rfl
            apply (suffixes_halts more (call listed closes)).mono
            intro others expr whole
            simpa using whole
      · next kind =>
          have index {inner : List Token} {closing : Token} {position : Expr}
              (inside : Derives .expression inner position) (closes : closing.kind = .rightSquare) :
              Derives .applied (before ++ token :: inner ++ [closing])
                (.index base position token.pos) := .index derived kind inside closes
          refine .after ((expression_halts rest).andThen (expression_sound finish rest).derived
            (fun _ begins => begins.close .rightSquare (by decide) fun _ _ _ inside closes =>
              ⟨_, by simpa using index inside closes⟩)
            fun position used more _ spent inside => ?_)
          refine (halts_expect _ (by decide)).andThen (sound_expect finish .rightSquare _)
            (fun _ begins => begins.mono fun _ _ closes => ?_)
            fun closing last left _ spentToo closes => ?_
          · obtain ⟨rfl, closes⟩ := closes
            exact ⟨_, by simpa using index inside closes⟩
          · obtain ⟨rfl, closes⟩ := closes
            have shorter := spent rfl
            have shorterToo := spentToo rfl
            apply (suffixes_halts left (index inside closes)).mono
            intro others expr whole
            simpa using whole
      · exact halts_done base
termination_by 16 * given.length
decreasing_by all_goals (rw [List.length_cons]; omega)

theorem list_halts (closing : Kind) (what : Text) (given : List Token)
    (legal : closing ≠ .illegal) (goesOn : closing ≠ .eof) :
    Halts finish (DerivesClosed closing) (list finish closing what given) := by
  rw [list]
  split
  · next empty =>
      exact ⟨nofun, fun _ => ⟨[], given, _, rfl, rfl, .unexpected (empty ▸ legal),
        begins_closed closing goesOn⟩⟩
  · exact items_halts closing what given goesOn
termination_by 16 * given.length + 14
decreasing_by all_goals omega

theorem items_halts (closing : Kind) (what : Text) (given : List Token)
    (goesOn : closing ≠ .eof) :
    Halts finish (DerivesClosed closing) (items finish closing what given) := by
  rw [items]
  refine (expression_halts given).andThen (expression_sound finish given).derived
    (fun _ begins => begins.close closing goesOn fun tokens item final derived closes =>
      ⟨[item], tokens, final, rfl, .item derived, closes⟩)
    fun item used rest _ spent derived => ?_
  have single {tokens : List Token} {final : Token}
      (closes : tokens = [final] ∧ final.kind = closing) :
      ∃ exprs, DerivesClosed closing (used ++ tokens) exprs := by
    obtain ⟨rfl, closes⟩ := closes
    exact ⟨[item], used, final, rfl, .item derived, closes⟩
  cases rest with
  | nil => exact (halts_expect _ goesOn).map fun _ _ => single
  | cons token more =>
      have shorter : more.length + 1 < given.length := spent rfl
      dsimp only
      split
      · next comma =>
          refine .after ((items_halts closing what more goesOn).map fun tokens exprs listed => ?_)
          obtain ⟨inner, final, rfl, others, closes⟩ := listed
          exact ⟨item :: exprs, used ++ token :: inner, final, by simp,
            .items derived comma others, closes⟩
      · exact (halts_expect _ goesOn).map fun _ _ => single
termination_by 16 * given.length + 13
decreasing_by all_goals omega

end

theorem definition_halts {keyword : Token} (given : List Token)
    (kind : keyword.kind = .varWord ∨ keyword.kind = .constWord) :
    Halts finish (fun used => Derives .statement (keyword :: used))
      (definition finish keyword given) := by
  have whole {name sign final : Token} {tokens : List Token} {initial : Expr}
      (named : name.kind = .identifier) (signed : sign.kind = .assign)
      (derived : Derives .expression tokens initial) (ends : final.kind = .semicolon) :
      ∃ stmt, Derives .statement (keyword :: name :: sign :: tokens ++ [final]) stmt :=
    ⟨.define name.text name.pos initial _ keyword.pos,
      .definition (definition_keyword kind) named signed derived ends⟩
  unfold definition
  refine (halts_expect _ (by decide)).andThen (sound_expect finish .identifier _)
    (fun _ begins => ?_) fun name tokens afterName _ _ named => ?_
  · refine begins.complete [.assign, .identifier, .semicolon] (by decide)
      fun _ _ more named same => ?_
    obtain ⟨rfl, named⟩ := named
    obtain ⟨sign, others, rfl, signed, sameOthers⟩ := List.map_eq_cons_iff.mp same
    obtain ⟨value, last, rfl, valued, sameLast⟩ := List.map_eq_cons_iff.mp sameOthers
    obtain ⟨final, rfl, ends⟩ := List.map_eq_singleton_iff.mp sameLast
    exact whole named signed (derives_expression_name valued) ends
  obtain ⟨rfl, named⟩ := named
  refine (halts_expect _ (by decide)).andThen (sound_expect finish .assign _)
    (fun _ begins => ?_) fun sign tokens afterSign _ _ signed => ?_
  · refine begins.complete [.identifier, .semicolon] (by decide) fun _ _ more signed same => ?_
    obtain ⟨rfl, signed⟩ := signed
    obtain ⟨value, last, rfl, valued, sameLast⟩ := List.map_eq_cons_iff.mp same
    obtain ⟨final, rfl, ends⟩ := List.map_eq_singleton_iff.mp sameLast
    exact whole named signed (derives_expression_name valued) ends
  obtain ⟨rfl, signed⟩ := signed
  refine (expression_halts finish afterSign).andThen (expression_sound finish afterSign).derived
    (fun _ begins => begins.close .semicolon (by decide) fun _ _ _ derived ends =>
      whole named signed derived ends)
    fun initial used rest _ _ derived => ?_
  refine (halts_expect _ (by decide)).map fun _ _ ends => ?_
  obtain ⟨rfl, ends⟩ := ends
  exact whole named signed derived ends

theorem simple_halts (given : List Token) :
    Halts finish (Derives .statement) (simple finish given) := by
  unfold simple
  refine (expression_halts finish given).andThen (expression_sound finish given).derived
    (fun _ begins => begins.close .semicolon (by decide) fun _ expr _ derived ends =>
      ⟨.eval expr finish, .effect derived ends⟩)
    fun expr used rest _ _ derived => ?_
  refine (halts_expect _ (by decide)).map fun _ _ ends => ?_
  obtain ⟨rfl, ends⟩ := ends
  exact ⟨.eval expr finish, .effect derived ends⟩

end Expressions

end Rover
