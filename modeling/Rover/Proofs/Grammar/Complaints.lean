import Rover.Proofs.Grammar.Joined
import Rover.Proofs.Grammar.Layout
import Rover.Proofs.Grammar.Refusal

/-!
The errors of a source are accounted for by its tokens. Each token has complaints of its own, mostly
none, and the errors are the complaints of all tokens one after another, whether a token was met
while parsing or skipped after an error.
-/

namespace Rover

open Rover.Parser

def Diagnostic.stray (pos : Pos) : Diagnostic :=
  ⟨text "expected expression, found '\x7d'", pos⟩

def Diagnostic.unclosed (pos : Pos) : Diagnostic :=
  ⟨text "expected '\x7d' to close block, found end of file", pos⟩

/-- Of an illegal token its own text is reported, and of another one at most that it was not
expected. Only a closing brace can be refused twice, and only the end once more for each block left
open. -/
inductive Complaints : Token → List Diagnostic → Prop
  | nothing {token : Token} : token.kind ≠ .illegal → Complaints token []
  | illegal {token : Token} : token.kind = .illegal → Complaints token [⟨token.text, token.pos⟩]
  | refused {token : Token} (message : Text) :
      token.kind ≠ .illegal → Complaints token [⟨message, token.pos⟩]
  | stray {token : Token} (message : Text) :
      token.kind = .rightBrace → Complaints token [⟨message, token.pos⟩, .stray token.pos]
  | unclosed {token : Token} (message : Text) (more : Nat) : token.kind = .eof →
      Complaints token (⟨message, token.pos⟩ :: List.replicate more (.unclosed token.pos))

/-- What has been said of the next token before it is read. -/
inductive Pending (finish : Pos) : List Token → List Diagnostic → Prop
  | nothing {left : List Token} : Pending finish left []
  | refused {token : Token} {rest : List Token} (message : Text) :
      token.kind ≠ .illegal → Pending finish (token :: rest) [⟨message, token.pos⟩]
  | ended (message : Text) (more : Nat) :
      Pending finish [] (⟨message, finish⟩ :: List.replicate more (.unclosed finish))

section Tokens

variable {finish : Pos} {token : Token} {given left middle : List Token}
  {before pending issues more : List Diagnostic}

theorem Pending.complaints (pending : Pending finish (token :: left) before)
    (legal : token.kind ≠ .illegal) : Complaints token before := by
  cases pending with
  | nothing => exact .nothing legal
  | refused message legal => exact .refused message legal

theorem Pending.final {final : Token} (pending : Pending final.pos [] before)
    (ends : final.kind = .eof) : Complaints final before := by
  cases pending with
  | nothing => exact .nothing (by rw [ends]; decide)
  | ended message more => exact .unclosed message more ends

theorem Pending.unclosed (pending : Pending finish [] before) :
    Pending finish [] (before ++ [.unclosed finish]) := by
  cases pending with
  | nothing => exact .ended _ 0
  | ended message more =>
      rw [List.cons_append, ← List.replicate_succ']
      exact .ended message (more + 1)

/-- The tokens up to what is left account for the errors: those said before and those that are found
are the complaints of these tokens and what is said of the next one. -/
def Covers (before : List Diagnostic) (given : List Token) (issues : List Diagnostic)
    (left : List Token) (pending : List Diagnostic) : Prop :=
  ∃ used groups, given = used ++ left ∧ List.Forall₂ Complaints used groups ∧
    before ++ issues = groups.flatten ++ pending

theorem covers_nothing : Covers before given [] given before :=
  ⟨[], [], rfl, .nil, List.append_nil before⟩

theorem covers_token (complaints : Complaints token (before ++ issues)) :
    Covers before (token :: left) issues left [] :=
  ⟨[token], [before ++ issues], rfl, .cons complaints .nil, by simp⟩

theorem covers_legal {used : List Token} (legal : ∀ token ∈ used, token.kind ≠ .illegal) :
    Covers [] (used ++ left) [] left [] := by
  refine ⟨used, used.map fun _ => [], rfl, ?_, by simp⟩
  rw [List.forall₂_map_right_iff, List.forall₂_same]
  exact fun token member => .nothing (legal token member)

theorem Covers.trans (covers : Covers before given issues middle pending)
    {later last : List Diagnostic} (onward : Covers pending middle later left last) :
    Covers before given (issues ++ later) left last := by
  obtain ⟨used, groups, rfl, complaints, same⟩ := covers
  obtain ⟨usedToo, groupsToo, rfl, complaintsToo, sameToo⟩ := onward
  refine ⟨used ++ usedToo, groups ++ groupsToo, (List.append_assoc _ _ _).symm,
    List.rel_append complaints complaintsToo, ?_⟩
  rw [← List.append_assoc, same, List.append_assoc, sameToo, List.flatten_append, List.append_assoc]

theorem Covers.add (covers : Covers before given issues left pending) (more : List Diagnostic) :
    Covers before given (issues ++ more) left (pending ++ more) := by
  obtain ⟨used, groups, whole, complaints, same⟩ := covers
  exact ⟨used, groups, whole, complaints, by rw [← List.append_assoc, same, List.append_assoc]⟩

end Tokens

/-- A step accounts for its errors. With a result, nothing is said of what comes next. -/
structure Traced {α : Type} {strict : Bool} {given : List Token} (finish : Pos)
    (before : List Diagnostic) (step : Step α strict given) : Prop where
  done : ∀ value, step.result = some value → Covers before given step.issues step.rest []
  refused : step.result = none → ∃ pending, Pending finish step.rest pending ∧
    Covers before given step.issues step.rest pending

section Steps

variable {α β : Type} {strict laxer : Bool} {given : List Token} {finish : Pos}
  {before : List Diagnostic}

theorem traced_done (value : α) : Traced finish [] (.done value given) :=
  ⟨fun _ _ => covers_nothing, nofun⟩

theorem Traced.map {step : Step α strict given} (traced : Traced finish before step)
    (convert : α → β) : Traced finish before (step.map convert) := by
  refine ⟨fun value found => ?_, fun failed => traced.refused (Option.map_eq_none_iff.mp failed)⟩
  obtain ⟨original, found, _⟩ := Option.map_eq_some_iff.mp found
  exact traced.done original found

theorem Traced.after {rest : List Token} {step : Step α laxer rest} {token : Token}
    (traced : Traced finish [] step) (complaints : Complaints token before) :
    Traced finish before (step.after token : Step α strict (token :: rest)) := by
  have first : Covers before (token :: rest) [] rest [] :=
    covers_token (by rwa [List.append_nil])
  refine ⟨fun value found => first.trans (traced.done value found), fun failed => ?_⟩
  obtain ⟨pending, next, covers⟩ := traced.refused failed
  exact ⟨pending, next, first.trans covers⟩

theorem outcome_andThen_none {first : Step α strict given} {rest : List Token}
    {issues : List Diagnostic}
    {next : α → (rest : List Token) → rest <:+ given →
      (strict = true → rest.length < given.length) → Step β laxer rest}
    (failed : first.outcome = (none, rest, issues)) :
    (first.andThen next).outcome = (none, rest, issues) := by
  obtain ⟨result, left, found, suffix, spent⟩ := first
  simp only [Step.outcome, Prod.mk.injEq] at failed
  obtain ⟨rfl, rfl, rfl⟩ := failed
  rfl

theorem Traced.andThen {first : Step α strict given}
    {next : α → (rest : List Token) → rest <:+ given →
      (strict = true → rest.length < given.length) → Step β laxer rest}
    (traced : Traced finish before first)
    (continues : ∀ value rest suffix spent, Traced finish [] (next value rest suffix spent)) :
    Traced finish before (first.andThen next) := by
  obtain ⟨result, rest, issues, suffix, spent⟩ := first
  cases result with
  | none => exact ⟨nofun, fun _ => traced.refused rfl⟩
  | some value =>
      have later := continues value rest suffix (spent rfl)
      refine ⟨fun final finished => (traced.done value rfl).trans (later.done final finished),
        fun failed => ?_⟩
      obtain ⟨pending, next, covers⟩ := later.refused failed
      exact ⟨pending, next, (traced.done value rfl).trans covers⟩

theorem Halts.traced {derives : List Token → α → Prop} {step : Step α strict given}
    (halts : Halts finish derives step) (sound : Sound step derives)
    (legal : ∀ used value, derives used value → ∀ token ∈ used, token.kind ≠ .illegal) :
    Traced finish [] step := by
  refine ⟨fun value found => ?_, fun failed => ?_⟩
  · have silent := halts.silent value found
    obtain ⟨tree, used, _, whole, derived⟩ := sound silent
    rw [silent]
    have covers : Covers [] (used ++ step.rest) [] step.rest [] :=
      covers_legal (legal used tree derived)
    rwa [← whole] at covers
  · obtain ⟨used, left, issue, rfl, single, refusal, kinds, _, completes⟩ := halts.refused failed
    obtain ⟨tree, derived⟩ := completes (kinds.map fun kind => ⟨kind, [], .start⟩)
      ((List.map_map ..).trans (List.map_id kinds))
    have covers : Covers [] (used ++ left) [] left [] := covers_legal fun token member =>
      legal _ tree derived token (List.mem_append_left _ member)
    rw [single]
    generalize step.rest = rest at refusal
    cases refusal with
    | illegal isIllegal => exact ⟨[], .nothing, covers.trans (covers_token (.illegal isIllegal))⟩
    | unexpected isLegal =>
        refine ⟨[_], ?_, covers.add _⟩
        cases left with
        | nil => exact .ended _ 0
        | cons token more => exact .refused _ isLegal

end Steps

def Kind.Stops (kind : Kind) : Prop :=
  kind = .rightBrace ∨ kind = .ifWord ∨ kind = .whileWord ∨ kind = .varWord ∨ kind = .constWord

/-- What has been said of the next token where a statement may start. -/
inductive Resumed (finish : Pos) : List Token → List Diagnostic → Prop
  | nothing {left : List Token} : Resumed finish left []
  | stopped {token : Token} {rest : List Token} (message : Text) :
      token.kind.Stops → Resumed finish (token :: rest) [⟨message, token.pos⟩]
  | ended (message : Text) (more : Nat) :
      Resumed finish [] (⟨message, finish⟩ :: List.replicate more (.unclosed finish))

section Recovery

variable {finish : Pos} {given : List Token} {before : List Diagnostic}

theorem Kind.Stops.legal {kind : Kind} (stops : kind.Stops) : kind ≠ .illegal := by
  rcases stops with rfl | rfl | rfl | rfl | rfl <;> decide

theorem Resumed.pending (resumed : Resumed finish given before) : Pending finish given before := by
  cases resumed with
  | nothing => exact .nothing
  | stopped message stops => exact .refused message stops.legal
  | ended message more => exact .ended message more

theorem Pending.resumed {token : Token} {rest : List Token}
    (pending : Pending finish (token :: rest) before) (stops : token.kind.Stops) :
    Resumed finish (token :: rest) before := by
  cases pending with
  | nothing => exact .nothing
  | refused message _ => exact .stopped message stops

theorem recover_covers (goesOn : ∀ token ∈ given, token.kind ≠ .eof)
    (pending : Pending finish given before) :
    ∃ next, Resumed finish (recover given).1 next ∧
      Covers before given (recover given).2 (recover given).1 next := by
  induction given generalizing before with
  | nil =>
      cases pending with
      | nothing => exact ⟨[], .nothing, covers_nothing⟩
      | ended message more => exact ⟨_, .ended message more, covers_nothing⟩
  | cons token rest ih =>
      have goesOnRest : ∀ token ∈ rest, token.kind ≠ .eof :=
        fun other member => goesOn other (List.mem_cons_of_mem token member)
      have stay (stops : token.kind.Stops) : ∃ next, Resumed finish (token :: rest) next ∧
          Covers before (token :: rest) [] (token :: rest) next :=
        ⟨before, pending.resumed stops, covers_nothing⟩
      rw [recover]
      split
      · next ends => exact absurd ends (goesOn token List.mem_cons_self)
      · next kind => exact stay (.inl kind)
      · next kind => exact stay (.inr (.inl kind))
      · next kind => exact stay (.inr (.inr (.inl kind)))
      · next kind => exact stay (.inr (.inr (.inr (.inl kind))))
      · next kind => exact stay (.inr (.inr (.inr (.inr kind))))
      · next kind =>
          refine ⟨[], .nothing, covers_token ?_⟩
          rw [List.append_nil]
          exact pending.complaints (by rw [kind]; decide)
      · next kind =>
          cases pending with
          | refused message legal => exact absurd kind legal
          | nothing =>
              have first : Covers [] (token :: rest) [⟨token.text, token.pos⟩] rest [] :=
                covers_token (.illegal kind)
              obtain ⟨next, resumed, covers⟩ := ih goesOnRest .nothing
              exact ⟨next, resumed, first.trans covers⟩
      · next legal =>
          have first : Covers before (token :: rest) [] rest [] := covers_token (by
            rw [List.append_nil]
            exact pending.complaints legal)
          obtain ⟨next, resumed, covers⟩ := ih goesOnRest .nothing
          exact ⟨next, resumed, first.trans covers⟩

/-- Recovery does not go on from where a statement started, unless that is a brace. -/
theorem recover_suffix_rest {token : Token} {rest left : List Token} (other : ¬token.kind.Stops)
    (goesOn : token.kind ≠ .eof) (suffix : left <:+ token :: rest) : (recover left).1 <:+ rest := by
  rcases List.suffix_cons_iff.mp suffix with rfl | shorter
  · rw [recover]
    split
    · next ends => exact absurd ends goesOn
    · next kind => exact absurd (.inl kind) other
    · next kind => exact absurd (.inr (.inl kind)) other
    · next kind => exact absurd (.inr (.inr (.inl kind))) other
    · next kind => exact absurd (.inr (.inr (.inr (.inl kind)))) other
    · next kind => exact absurd (.inr (.inr (.inr (.inr kind)))) other
    · exact List.suffix_refl rest
    · exact recover_suffix rest
    · exact recover_suffix rest
  · exact (recover_suffix left).trans shorter

theorem stepOver_apart {start : Pos} {left : List Token}
    (apart : ∀ token ∈ left, token.pos ≠ start) : stepOver start left = left := by
  cases left with
  | nil => rfl
  | cons token rest => exact if_neg fun same => apart token List.mem_cons_self same.2

end Recovery

structure Proper (given : List Token) : Prop where
  goesOn : ∀ token ∈ given, token.kind ≠ .eof
  places : (given.map Token.pos).Nodup

section Statements

variable {finish : Pos} {given left : List Token}

theorem Proper.suffix (proper : Proper given) (suffix : left <:+ given) : Proper left :=
  ⟨fun token member => proper.goesOn token (suffix.subset member),
    proper.places.sublist (suffix.sublist.map _)⟩

variable (finish)

theorem expression_traced : Traced finish [] (expression finish given) :=
  (expression_halts finish given).traced (expression_sound finish given).derived
    fun _ _ derived => derived.regular.legal

theorem expect_traced {kind : Kind} (context : Text) (goesOn : kind ≠ .eof)
    (legal : kind ≠ .illegal) : Traced finish [] (expect finish kind context given) := by
  refine (halts_expect context goesOn).traced (sound_expect finish kind context) ?_
  rintro _ token ⟨rfl, same⟩
  exact List.forall_mem_singleton.mpr (same ▸ legal)

theorem simple_traced : Traced finish [] (simple finish given) :=
  (simple_halts finish given).traced (simple_sound finish given).derived
    fun _ _ derived => derived.regular.legal

theorem definition_traced {keyword : Token}
    (kind : keyword.kind = .varWord ∨ keyword.kind = .constWord) :
    Traced finish [] (definition finish keyword given) :=
  (definition_halts finish given kind).traced
    ((definition_sound finish given kind).mono fun _ _ placed => placed.derived)
    fun _ _ derived token member =>
      derived.regular.legal token (List.mem_cons_of_mem keyword member)

theorem stray_message :
    text "expected " ++ text "expression" ++ text ", found " ++
      (text "'" ++ Kind.rightBrace.name ++ text "'") =
        text "expected expression, found '\x7d'" := by
  decide +kernel

theorem statement_brace (brace : Token) (rest : List Token) (closes : brace.kind = .rightBrace) :
    (statement finish (brace :: rest)).outcome = (none, brace :: rest, [.stray brace.pos]) := by
  have stray : Diagnostic.unexpected (text "expression") brace = .stray brace.pos := by
    rw [Diagnostic.unexpected, Token.shown]
    simp only [closes]
    exact congrArg (fun message => Diagnostic.mk message brace.pos) stray_message
  have refusedUnary : (unary finish (brace :: rest)).outcome =
      (none, brace :: rest, [.stray brace.pos]) := by
    have bare : unaryOperator? brace.kind = none := by
      rw [closes]
      rfl
    rw [unary.eq_def]
    dsimp only
    rw [bare, postfixed.eq_def]
    simp only [closes]
    rw [← stray]
    exact (refuse_cons _ brace rest).trans (if_neg (by rw [closes]; decide))
  have refusedOperation (tier : Tier) (refused : (operand finish tier (brace :: rest)).outcome =
      (none, brace :: rest, [.stray brace.pos])) :
      (operation finish tier (brace :: rest)).outcome =
        (none, brace :: rest, [.stray brace.pos]) := by
    rw [operation]
    exact outcome_andThen_none refused
  have product := refusedOperation .product (by rw [operand]; exact refusedUnary)
  have sum := refusedOperation .sum (by rw [operand]; exact product)
  have comparison := refusedOperation .comparison (by rw [operand]; exact sum)
  have equality := refusedOperation .equality (by rw [operand]; exact comparison)
  rw [statement.eq_def]
  simp only [closes]
  have refusedConjunction : (conjunction finish (brace :: rest)).outcome =
      (none, brace :: rest, [.stray brace.pos]) := by
    rw [conjunction]
    exact outcome_andThen_none equality
  have refusedDisjunction : (disjunction finish (brace :: rest)).outcome =
      (none, brace :: rest, [.stray brace.pos]) := by
    rw [disjunction]
    exact outcome_andThen_none refusedConjunction
  have refusedExpression : (expression finish (brace :: rest)).outcome =
      (none, brace :: rest, [.stray brace.pos]) := by
    rw [expression]
    exact outcome_andThen_none refusedDisjunction
  exact outcome_andThen_none refusedExpression

theorem statements_brace {closing : Kind} {brace : Token} (rest : List Token)
    (isBrace : brace.kind = .rightBrace) (goesOn : ¬(brace.kind = closing ∨ brace.kind = .eof)) :
    (statements finish closing (brace :: rest)).rest = (statements finish closing rest).rest ∧
      (statements finish closing (brace :: rest)).issues =
        .stray brace.pos :: (statements finish closing rest).issues := by
  have failed := statement_brace finish brace rest isBrace
  have recovers : recover (brace :: rest) = (brace :: rest, []) := by
    rw [recover]
    simp only [isBrace]
  have steps : stepOver brace.pos (brace :: rest) = rest :=
    if_pos ⟨fun ends => goesOn (.inr ends), rfl⟩
  rw [statements.eq_def]
  dsimp only
  rw [dif_neg goesOn]
  generalize statement finish (brace :: rest) = step at failed
  obtain ⟨result, left, issues, suffix, spent⟩ := step
  cases failed
  dsimp only
  rw [recovers, steps]
  exact ⟨rfl, rfl⟩

theorem statement_keyword {token : Token} {rest : List Token} (stops : token.kind.Stops)
    (other : token.kind ≠ .rightBrace) : (statement finish (token :: rest)).rest <:+ rest := by
  rw [statement.eq_def]
  dsimp only
  split
  · exact (conditional finish token.pos rest).suffix
  · exact ((expression finish rest).andThen _).suffix
  · next kind =>
      rw [kind] at stops
      simp [Kind.Stops] at stops
  · exact (definition finish token rest).suffix
  · exact (definition finish token rest).suffix
  · next notIf notWhile _ notVar notConst =>
      rcases stops with kind | kind | kind | kind | kind
      · exact absurd kind other
      · exact absurd kind notIf
      · exact absurd kind notWhile
      · exact absurd kind notVar
      · exact absurd kind notConst

/-- After a failure the next statement starts behind the token at which the failed one did. -/
theorem recover_statement {token : Token} (rest : List Token) (goesOn : token.kind ≠ .eof)
    (other : token.kind ≠ .rightBrace) :
    (recover (statement finish (token :: rest)).rest).1 <:+ rest := by
  by_cases stops : token.kind.Stops
  · exact (recover_suffix _).trans (statement_keyword finish stops other)
  · exact recover_suffix_rest stops goesOn (statement finish (token :: rest)).suffix

theorem unclosed_message :
    text "expected " ++ expect.expected .rightBrace (text "to close block") ++ text ", found " ++
      Kind.eof.name = text "expected '\x7d' to close block, found end of file" := by
  decide +kernel

theorem closed_traced {inner : Step (List Stmt) false given} (proper : Proper given)
    (covers : ∃ pending, Pending finish inner.rest pending ∧
      Covers [] given inner.issues inner.rest pending)
    (ended : Ended .rightBrace inner.rest) {β : Type} (convert : List Stmt → Token → β) :
    Traced finish [] (inner.andThen fun body more _ _ =>
      (expect finish .rightBrace (text "to close block") more).map (convert body)) := by
  obtain ⟨pending, next, covers⟩ := covers
  obtain ⟨result, left, issues, suffix, spent⟩ := inner
  cases result with
  | none => exact ⟨nofun, fun _ => ⟨pending, next, covers⟩⟩
  | some body =>
      cases left with
      | nil =>
          have more : (expect finish .rightBrace (text "to close block") []).issues =
              [.unclosed finish] :=
            congrArg (fun message => [Diagnostic.mk message finish]) unclosed_message
          have remains : (expect finish .rightBrace (text "to close block") []).rest = [] := rfl
          refine ⟨nofun, fun _ => ?_⟩
          dsimp only [Step.andThen, Step.map]
          rw [more, remains]
          exact ⟨_, next.unclosed, covers.add _⟩
      | cons token rest =>
          have closes : token.kind = .rightBrace :=
            ended.resolve_right (proper.goesOn token (suffix.subset List.mem_cons_self))
          have last : Covers pending (token :: rest) [] rest [] := covers_token (by
            rw [List.append_nil]
            exact next.complaints (by rw [closes]; decide))
          have read := outcome_expect finish (text "to close block") closes rest
          simp only [Step.outcome, Prod.mk.injEq] at read
          obtain ⟨result, remains, silent⟩ := read
          refine ⟨fun _ _ => ?_, fun failed => ?_⟩
          · dsimp only [Step.andThen, Step.map]
            rw [remains, silent]
            exact covers.trans last
          · cases (Option.map_eq_none_iff.mp failed).symm.trans result

mutual

theorem statements_covers (closing : Kind) (given : List Token) : Proper given →
    ∀ before, Resumed finish given before →
      ∃ pending, Pending finish (statements finish closing given).rest pending ∧
        Covers before given (statements finish closing given).issues
          (statements finish closing given).rest pending := by
  cases given with
  | nil =>
      intro _ before resumed
      rw [statements]
      exact ⟨before, resumed.pending, covers_nothing⟩
  | cons token rest =>
      intro proper before resumed
      have goesOn := proper.goesOn token List.mem_cons_self
      by_cases stop : token.kind = closing ∨ token.kind = .eof
      · rw [statements.eq_def]
        dsimp only
        rw [dif_pos stop]
        exact ⟨before, resumed.pending, covers_nothing⟩
      by_cases isBrace : token.kind = .rightBrace
      · obtain ⟨pending, next, covers⟩ := statements_covers closing rest
          (proper.suffix (List.suffix_cons token rest)) [] .nothing
        obtain ⟨remains, issues⟩ := statements_brace finish rest isBrace stop
        have first : Covers before (token :: rest) [.stray token.pos] rest [] := covers_token (by
          cases resumed with
          | nothing => exact .refused _ (by rw [isBrace]; decide)
          | stopped message _ => exact .stray message isBrace)
        rw [remains, issues]
        exact ⟨pending, next, first.trans covers⟩
      · have traced := statement_traced token rest proper before resumed isBrace
        have behind := recover_statement finish rest goesOn isBrace
        have apart : ∀ other ∈ rest, other.pos ≠ token.pos := fun other member same =>
          (List.nodup_cons.mp proper.places).1 (same ▸ List.mem_map_of_mem member)
        rw [statements.eq_def]
        dsimp only
        rw [dif_neg stop]
        generalize statement finish (token :: rest) = step at traced behind
        obtain ⟨result, left, issues, suffix, spent⟩ := step
        cases result with
        | some stmt =>
            have less : left.length < rest.length + 1 := spent rfl rfl
            obtain ⟨pending, next, covers⟩ := statements_covers closing left
              (proper.suffix suffix) [] .nothing
            exact ⟨pending, next, (traced.done stmt rfl).trans covers⟩
        | none =>
            obtain ⟨said, next, covers⟩ := traced.refused rfl
            obtain ⟨saidToo, resumed, skips⟩ := recover_covers (proper.suffix suffix).goesOn next
            have less : (recover left).1.length ≤ rest.length := behind.length_le
            dsimp only at behind ⊢
            rw [stepOver_apart fun other member => apart other (behind.subset member)]
            obtain ⟨pending, last, rests⟩ := statements_covers closing (recover left).1
              (proper.suffix ((recover_suffix left).trans suffix)) saidToo resumed
            exact ⟨pending, last, (covers.trans skips).trans rests⟩
termination_by 16 * given.length + 3
decreasing_by all_goals (simp only [List.length_cons] at *; omega)

theorem statement_traced (token : Token) (rest : List Token) (proper : Proper (token :: rest))
    (before : List Diagnostic) (resumed : Resumed finish (token :: rest) before)
    (other : token.kind ≠ .rightBrace) :
    Traced finish before (statement finish (token :: rest)) := by
  have inner := proper.suffix (List.suffix_cons token rest)
  -- what starts without a keyword starts where nothing has been said
  have fresh (free : ¬token.kind.Stops) : before = [] := by
    cases resumed with
    | nothing => rfl
    | stopped _ stops => exact absurd stops free
  have complaints {kind : Kind} (same : token.kind = kind) (legal : kind ≠ .illegal) :
      Complaints token before := resumed.pending.complaints (same ▸ legal)
  rw [statement.eq_def]
  dsimp only
  split
  · next kind => exact (conditional_traced token.pos rest inner).after (complaints kind (by decide))
  · next kind =>
      refine .after ((expression_traced finish).andThen fun condition more suffix spent => ?_)
        (complaints kind (by decide))
      have shorter := spent rfl
      exact (block_traced more (inner.suffix suffix)).map _
  · next kind =>
      cases fresh (by rw [kind]; simp [Kind.Stops])
      exact (block_traced (token :: rest) proper).map _
  · next kind => exact (definition_traced finish (.inl kind)).after (complaints kind (by decide))
  · next kind => exact (definition_traced finish (.inr kind)).after (complaints kind (by decide))
  · next notIf notWhile _ notVar notConst =>
      cases fresh (by simpa [Kind.Stops] using ⟨other, notIf, notWhile, notVar, notConst⟩)
      exact simple_traced finish
termination_by 16 * (rest.length + 1) + 2
decreasing_by all_goals ((try rw [List.length_cons]); omega)

theorem conditional_traced (start : Pos) (given : List Token) (proper : Proper given) :
    Traced finish [] (conditional finish start given) := by
  rw [conditional]
  refine (expression_traced finish).andThen fun condition rest suffix spent => ?_
  have shorter := spent rfl
  refine (block_traced rest (proper.suffix suffix)).andThen fun body more suffixToo spentToo => ?_
  cases more with
  | nil => exact traced_done _
  | cons token left =>
      have shorterToo : left.length + 1 < rest.length := spentToo rfl
      have inner := (proper.suffix suffix).suffix ((List.suffix_cons token left).trans suffixToo)
      dsimp only
      split
      · next isElse =>
          exact .after ((alternative_traced left inner).map _) (.nothing (by rw [isElse]; decide))
      · exact traced_done _
termination_by 16 * given.length + 2
decreasing_by all_goals omega

theorem alternative_traced (given : List Token) :
    Proper given → Traced finish [] (alternative finish given) := by
  rw [alternative.eq_def]
  cases given with
  | nil => exact fun proper => (block_traced [] proper).map _
  | cons token rest =>
      intro proper
      dsimp only
      split
      · next isIf =>
          have inner := proper.suffix (List.suffix_cons token rest)
          exact .after (conditional_traced token.pos rest inner) (.nothing (by rw [isIf]; decide))
      · exact (block_traced (token :: rest) proper).map _
termination_by 16 * given.length + 1
decreasing_by all_goals ((try rw [List.length_cons]); omega)

theorem block_traced (given : List Token) (proper : Proper given) :
    Traced finish [] (block finish given) := by
  rw [block]
  refine (expect_traced finish _ (by decide) (by decide)).andThen
    fun opening rest suffix spent => ?_
  have shorter := spent rfl
  have inner := proper.suffix suffix
  exact closed_traced finish inner (statements_covers .rightBrace rest inner [] .nothing)
    (statements_ended finish .rightBrace rest) _
termination_by 16 * given.length
decreasing_by all_goals omega

end

end Statements

/-- The errors of a source are the complaints about its tokens. -/
theorem parse_complaints {source : Text} {issues : List Diagnostic}
    (rejected : parse source = .error issues) :
    ∃ groups, List.Forall₂ Complaints (tokens source) groups ∧ issues = groups.flatten := by
  obtain ⟨given, final, whole, ends, goesOn⟩ := tokensFrom_ended source.chars .start
  have places := tokens_nodup source
  rw [← tokens] at whole
  rw [parse, whole, parseTokens_append] at rejected
  rw [whole, List.map_append] at places
  have proper : Proper given := ⟨goesOn, (List.nodup_append.mp places).1⟩
  obtain ⟨pending, next, used, groups, same, complaints, flat⟩ :=
    statements_covers final.pos .eof given proper [] .nothing
  rw [statements_all final.pos goesOn] at next same
  rw [List.append_nil] at same
  subst same
  refine ⟨groups ++ [pending], ?_, ?_⟩
  · rw [whole]
    exact List.rel_append complaints (.cons (next.final ends) .nil)
  · rw [← program_issues rejected]
    simpa using flat

end Rover
