import Rover.Proofs.Grammar.Chunks
import Rover.Proofs.Grammar.Progress

/-!
Errors inside a block stay inside. Where recovery goes past no opening brace, the loop over the
statements of a block comes to the brace that closes it, whatever fails on the way. Only a statement
that this brace cuts off is complained of there, and nothing is behind it.
-/

namespace Rover

open Rover.Parser
open Rover.Parser.Step (outcome_andThen outcome_map)

/-- How many blocks are open behind some tokens, unless a brace closes none. -/
def nesting : Nat → List Token → Option Nat
  | depth, [] => some depth
  | depth, token :: rest =>
      if token.kind = .leftBrace then nesting (depth + 1) rest
      else if token.kind = .rightBrace then if depth = 0 then none else nesting (depth - 1) rest
      else nesting depth rest

/-- Every block that is opened is closed, and no other. -/
def Balanced (tokens : List Token) : Prop := nesting 0 tokens = some 0

instance (tokens : List Token) : Decidable (Balanced tokens) :=
  inferInstanceAs (Decidable (nesting 0 tokens = some 0))

section Nesting

variable {depth : Nat} {token : Token} {used left : List Token}

theorem nesting_leftBrace (opens : token.kind = .leftBrace) :
    nesting depth (token :: left) = nesting (depth + 1) left := by
  rw [nesting, if_pos opens]

theorem nesting_rightBrace (closes : token.kind = .rightBrace) :
    nesting (depth + 1) (token :: left) = nesting depth left := by
  rw [nesting, if_neg (by rw [closes]; decide), if_pos closes]
  rfl

theorem nesting_other (flat : token.kind ≠ .leftBrace) (level : token.kind ≠ .rightBrace) :
    nesting depth (token :: left) = nesting depth left := by
  rw [nesting, if_neg flat, if_neg level]

theorem nesting_append (flat : ∀ token ∈ used, token.kind ≠ .leftBrace ∧ token.kind ≠ .rightBrace) :
    nesting depth (used ++ left) = nesting depth left := by
  induction used with
  | nil => rfl
  | cons token used ih =>
      obtain ⟨opens, closes⟩ := flat token List.mem_cons_self
      rw [List.cons_append, nesting_other opens closes]
      exact ih fun other inside => flat other (List.mem_cons_of_mem token inside)

theorem inline_level (kind : Kind) (inline : kind.inline = true) :
    kind ≠ .leftBrace ∧ kind ≠ .rightBrace := by
  constructor <;> rintro rfl <;> cases inline

theorem plain_level (kind : Kind) (plain : kind.plain = true) :
    kind ≠ .leftBrace ∧ kind ≠ .rightBrace := by
  constructor <;> rintro rfl <;> cases plain

end Nesting

def Among (used : List Token) (issues : List Diagnostic) : Prop :=
  ∀ issue ∈ issues, ∃ token ∈ used, token.pos = issue.pos

/-- Recovery from an error meets no opening brace: none stands between the token at which the error
is and the next place where recovery stops. -/
def Clear (tokens : List Token) (issue : Diagnostic) : Prop :=
  ∀ rest, rest <:+ tokens → rest.head?.map Token.pos = some issue.pos →
    ∀ skipped ∈ rest.takeWhile (·.kind.passed), skipped.kind ≠ .leftBrace

instance (tokens : List Token) (issue : Diagnostic) : Decidable (Clear tokens issue) :=
  decidable_of_iff (∀ rest ∈ tokens.tails, rest.head?.map Token.pos = some issue.pos →
    ∀ skipped ∈ rest.takeWhile fun token : Token => token.kind.passed, skipped.kind ≠ .leftBrace)
    (forall_congr' fun rest => imp_congr_left (List.mem_tails rest tokens))

def CutOff (used : List Token) : Prop :=
  ∃ last, used.getLast? = some last ∧ last.kind ≠ .semicolon ∧ last.kind ≠ .rightBrace

section Among

variable {used more left : List Token} {issues others : List Diagnostic} {issue : Diagnostic}

theorem among_nil : Among used [] := List.forall_mem_nil _

theorem among_single {token : Token} (inside : token ∈ used) (place : token.pos = issue.pos) :
    Among used [issue] :=
  List.forall_mem_singleton.mpr ⟨token, inside, place⟩

theorem Among.append (among : Among used issues) (amongMore : Among used others) :
    Among used (issues ++ others) :=
  List.forall_mem_append.mpr ⟨among, amongMore⟩

theorem Among.mono (among : Among used issues) (subset : used ⊆ more) : Among more issues :=
  fun issue inside => (among issue inside).imp fun _ found => ⟨subset found.1, found.2⟩

theorem Among.nothing (among : Among [] issues) : issues = [] :=
  List.eq_nil_iff_forall_not_mem.mpr fun issue inside => nomatch (among issue inside).choose_spec.1

theorem Clear.behind (clear : Clear (used ++ left) issue) : Clear left issue :=
  fun rest suffix => clear rest (suffix.trans (List.suffix_append used left))

theorem Clear.tail {token : Token} (clear : Clear (token :: left) issue) : Clear left issue :=
  fun rest suffix => clear rest (suffix.trans (List.suffix_cons token left))

theorem cutOff_concat {last : Token} (goesOn : last.kind ≠ .semicolon)
    (open_ : last.kind ≠ .rightBrace) : CutOff (used ++ [last]) :=
  ⟨last, List.getLast?_concat, goesOn, open_⟩

theorem cutOff_inline {before : List Token} (cut : before = [] ∨ CutOff before)
    (inline : Admits .expression used) : before ++ used = [] ∨ CutOff (before ++ used) := by
  rcases List.eq_nil_or_concat used with rfl | ⟨first, last, rfl⟩
  · rwa [List.append_nil]
  · have isInline := inline last (by simp)
    rw [List.concat_eq_append, ← List.append_assoc]
    right
    apply cutOff_concat <;> intro kind <;> rw [kind] at isInline <;> cases isInline

theorem CutOff.behind (cut : CutOff used) : CutOff (more ++ used) := by
  obtain ⟨last, same, others⟩ := cut
  exact ⟨last, by rw [List.getLast?_append, same]; rfl, others⟩

end Among

/-- Tokens before a closing brace and what is behind it. They close the blocks that are open before
them, except the one that this brace closes. -/
structure Framed (closing : Token) (behind : List Token) (depth : Nat) (inner : List Token) :
    Prop where
  goesOn : ∀ token ∈ inner, token.kind ≠ .eof
  places : ((inner ++ closing :: behind).map Token.pos).Nodup
  nested : nesting depth inner = some 0

/-- A step that stays before the closing brace and among the blocks that it was in. Behind the
tokens before it, the one that it refuses does not start a statement. -/
structure Inside {α : Type} {strict : Bool} {given : List Token} (finish : Pos) (closing : Token)
    (behind : List Token) (depth : Nat) (before inner : List Token) (step : Step α strict given) :
    Prop where
  done : (∀ issue ∈ step.issues, Clear inner issue) → ∀ value, step.result = some value →
    ∃ used left, inner = used ++ left ∧ step.rest = left ++ closing :: behind ∧
      nesting depth left = some 0 ∧ Among used step.issues
  refused : (∀ issue ∈ step.issues, Clear inner issue) → step.result = none →
    ∃ used left others issue, inner = used ++ left ∧ nesting depth left = some 0 ∧
      step.issues = others ++ [issue] ∧ Among used others ∧
      Refusal finish (left ++ closing :: behind) step.rest issue ∧
      (before ++ used = [] ∨ CutOff (before ++ used))

section Steps

variable {α β : Type} {strict laxer : Bool} {given : List Token} {finish : Pos} {closing : Token}
  {behind used inner before : List Token} {depth : Nat}

theorem Framed.left {left : List Token} (framed : Framed closing behind depth (used ++ left))
    {deep : Nat} (nested : nesting deep left = some 0) : Framed closing behind deep left where
  goesOn token inside := framed.goesOn token (List.mem_append_right _ inside)
  places := by
    have places := framed.places
    rw [List.append_assoc, List.map_append] at places
    exact (List.nodup_append.mp places).2.1
  nested := nested

theorem Inside.map {step : Step α strict given}
    (stays : Inside finish closing behind depth before inner step) (convert : α → β) :
    Inside finish closing behind depth before inner (step.map convert) := by
  refine ⟨fun clear value found => ?_,
    fun clear failed => stays.refused clear (Option.map_eq_none_iff.mp failed)⟩
  obtain ⟨original, found, _⟩ := Option.map_eq_some_iff.mp found
  exact stays.done clear original found

theorem Inside.after {token : Token} {step : Step α laxer given}
    (stays : Inside finish closing behind depth (before ++ [token]) inner step) :
    Inside finish closing behind depth before (token :: inner)
      (step.after token : Step α strict (token :: given)) := by
  refine ⟨fun clear value found => ?_, fun clear failed => ?_⟩
  · obtain ⟨used, left, rfl, rest, nested, among⟩ :=
      stays.done (fun issue inside => (clear issue inside).tail) value found
    exact ⟨token :: used, left, rfl, rest, nested, among.mono (List.subset_cons_self token used)⟩
  · obtain ⟨used, left, others, issue, rfl, nested, issues, among, refusal, cut⟩ :=
      stays.refused (fun issue inside => (clear issue inside).tail) failed
    rw [List.append_assoc, List.singleton_append] at cut
    exact ⟨token :: used, left, others, issue, rfl, nested, issues,
      among.mono (List.subset_cons_self token used), refusal, cut⟩

theorem Inside.andThen {first : Step α strict given}
    {next : α → (rest : List Token) → rest <:+ given →
      (strict = true → rest.length < given.length) → Step β laxer rest}
    (stays : Inside finish closing behind depth before inner first)
    (continues : ∀ value used left rest suffix spent, inner = used ++ left →
      rest = left ++ closing :: behind → nesting depth left = some 0 →
      first.result = some value → first.rest = rest →
      Inside finish closing behind depth (before ++ used) left (next value rest suffix spent)) :
    Inside finish closing behind depth before inner (first.andThen next) := by
  obtain ⟨result, rest, issues, suffix, spent⟩ := first
  cases result with
  | none => exact ⟨nofun, fun clear _ => stays.refused clear rfl⟩
  | some value =>
      have both
          (clear : ∀ issue ∈ (Step.andThen ⟨some value, rest, issues, suffix, spent⟩ next).issues,
          Clear inner issue) := List.forall_mem_append.mp clear
      refine ⟨fun clear final finished => ?_, fun clear failed => ?_⟩
      · obtain ⟨used, left, rfl, same, nested, among⟩ := stays.done (both clear).1 value rfl
        obtain ⟨usedToo, leftToo, rfl, rest, nested, amongToo⟩ :=
          (continues value used left rest suffix (spent rfl) rfl same nested rfl rfl).done
            (fun issue inside => ((both clear).2 issue inside).behind) final finished
        exact ⟨used ++ usedToo, leftToo, (List.append_assoc _ _ _).symm, rest, nested,
          (among.mono (List.subset_append_left _ _)).append
            (amongToo.mono (List.subset_append_right _ _))⟩
      · obtain ⟨used, left, rfl, same, nested, among⟩ := stays.done (both clear).1 value rfl
        obtain ⟨usedToo, leftToo, others, issue, rfl, nested, issuesToo, amongToo, refusal, cut⟩ :=
          (continues value used left rest suffix (spent rfl) rfl same nested rfl rfl).refused
            (fun issue inside => ((both clear).2 issue inside).behind) failed
        refine ⟨used ++ usedToo, leftToo, issues ++ others, issue, (List.append_assoc _ _ _).symm,
          nested, ?_, (among.mono (List.subset_append_left _ _)).append
            (amongToo.mono (List.subset_append_right _ _)), refusal, by rwa [← List.append_assoc]⟩
        rw [List.append_assoc, ← issuesToo]
        rfl

theorem Flat.inside {fits : Kind → Bool} {step : Step α strict given}
    (flat : Flat finish fits step) (whole : given = inner ++ closing :: behind)
    (closes : closing.kind = .rightBrace)
    (level : ∀ kind, fits kind = true → kind ≠ .leftBrace ∧ kind ≠ .rightBrace)
    (nested : nesting depth inner = some 0) (cut : before = [] ∨ CutOff before) :
    Inside finish closing behind depth before inner step := by
  refine ⟨fun _ value found => ?_, fun _ failed => ?_⟩
  · obtain ⟨silent, used, same, fit⟩ := flat.done value found
    have apart : closing ∉ used := fun inside => (level _ (fit closing inside)).2 closes
    obtain ⟨left, rfl, rest⟩ := split_before apart (whole.symm.trans same)
    rw [nesting_append fun token inside => level _ (fit token inside)] at nested
    exact ⟨used, left, rfl, rest, nested, silent ▸ among_nil⟩
  · obtain ⟨used, left, issue, same, single, refusal, inline⟩ := flat.refused failed
    have apart : closing ∉ used := fun inside => (inline_level _ (inline closing inside)).2 closes
    obtain ⟨left, rfl, rfl⟩ := split_before apart (whole.symm.trans same)
    rw [nesting_append fun token inside => inline_level _ (inline token inside)] at nested
    exact ⟨used, left, [], issue, rfl, nested, single, among_nil, refusal, cutOff_inline cut inline⟩

theorem inside_done (value : α) (nested : nesting depth inner = some 0) :
    Inside finish closing behind depth before inner (.done value (inner ++ closing :: behind)) :=
  ⟨fun _ _ _ => ⟨[], inner, rfl, rfl, nested, among_nil⟩, nofun⟩

end Steps

section Recovery

variable {finish : Pos} {closing : Token} {behind left : List Token} {depth : Nat}

theorem recover_inside (closes : closing.kind = .rightBrace)
    (goesOn : ∀ token ∈ left, token.kind ≠ .eof) (nested : nesting depth left = some 0)
    (clear : ∀ skipped ∈ left.takeWhile (·.kind.passed), skipped.kind ≠ .leftBrace) :
    ∃ dropped kept illegals, left = dropped ++ kept ∧
      recover (left ++ closing :: behind) = (kept ++ closing :: behind, illegals) ∧
      Among dropped illegals ∧ nesting depth kept = some 0 := by
  induction left with
  | nil => exact ⟨[], [], [], rfl, recover_stops (.inl closes) behind, among_nil, nested⟩
  | cons token rest ih =>
      rcases token.kind.passed_or with passed | kind | kind | stops
      · rw [List.takeWhile_cons, if_pos passed, List.forall_mem_cons] at clear
        have level : token.kind ≠ .rightBrace := by
          intro kind
          rw [kind] at passed
          cases passed
        rw [nesting_other clear.1 level] at nested
        obtain ⟨dropped, kept, illegals, rfl, recovers, among, nested⟩ :=
          ih (fun other inside => goesOn other (List.mem_cons_of_mem token inside)) nested clear.2
        refine ⟨token :: dropped, kept,
          if token.kind = .illegal then ⟨token.text, token.pos⟩ :: illegals else illegals,
          rfl, ?_, ?_, nested⟩
        · rw [List.cons_append, recover_passed passed, recovers]
        · have amongRest := among.mono (List.subset_cons_self token dropped)
          split
          · exact .append (among_single List.mem_cons_self rfl) amongRest
          · exact amongRest
      · exact absurd kind (goesOn token List.mem_cons_self)
      · rw [nesting_other (by rw [kind]; decide) (by rw [kind]; decide)] at nested
        exact ⟨[token], rest, [], rfl, recover_semicolon kind _, among_nil, nested⟩
      · exact ⟨[], token :: rest, [], rfl, recover_stops stops _, among_nil, nested⟩

theorem Refusal.named {rest : List Token} {issue : Diagnostic}
    (refusal : Refusal finish (left ++ closing :: behind) rest issue)
    (legal : (left.headD closing).kind ≠ .illegal) :
    ∃ expected, issue = .unexpected expected (left.headD closing) := by
  generalize given : left ++ closing :: behind = tokens at refusal
  cases refusal with
  | illegal isIllegal => cases left <;> cases given <;> exact absurd isIllegal legal
  | unexpected _ =>
      rw [← given, peek_bar]
      exact ⟨_, rfl⟩

/-- Recovery from a refused token goes past it or stays at it. -/
theorem Refusal.recovers {rest : List Token} {issue : Diagnostic}
    (refusal : Refusal finish (left ++ closing :: behind) rest issue)
    (closes : closing.kind = .rightBrace) (goesOn : ∀ token ∈ left, token.kind ≠ .eof)
    (nested : nesting depth left = some 0) (clear : Clear left issue) :
    ∃ dropped kept illegals, left = dropped ++ kept ∧
      recover rest = (kept ++ closing :: behind, illegals) ∧ Among dropped illegals ∧
      nesting depth kept = some 0 ∧ (Among dropped [issue] ∨
        dropped = [] ∧ ∃ expected, issue = .unexpected expected (kept.headD closing)) := by
  have legal : closing.kind ≠ .illegal := by
    rw [closes]
    decide
  have place := refusal.pos
  rw [peek_bar] at place
  have rest_eq := refusal.rest_eq legal
  cases left with
  | nil =>
      rw [List.headD_nil, if_neg legal] at rest_eq
      refine ⟨[], [], [], rfl, ?_, among_nil, nested, .inr ⟨rfl, refusal.named legal⟩⟩
      rw [rest_eq]
      exact recover_stops (.inl closes) behind
  | cons token more =>
      have clearHere := clear _ (List.suffix_refl _) (congrArg some place.symm)
      rw [List.headD_cons] at rest_eq place
      by_cases isIllegal : token.kind = .illegal
      · rw [if_pos isIllegal, List.tail_cons] at rest_eq
        rw [List.takeWhile_cons, if_pos (by rw [isIllegal]; rfl), List.forall_mem_cons] at clearHere
        rw [nesting_other clearHere.1 (by rw [isIllegal]; decide)] at nested
        obtain ⟨dropped, kept, illegals, rfl, recovers, among, nested⟩ := recover_inside closes
          (fun other inside => goesOn other (List.mem_cons_of_mem token inside)) nested clearHere.2
        exact ⟨token :: dropped, kept, illegals, rfl, rest_eq ▸ recovers,
          among.mono (List.subset_cons_self token dropped), nested,
          .inl (among_single List.mem_cons_self place.symm)⟩
      · rw [if_neg isIllegal] at rest_eq
        obtain ⟨dropped, kept, illegals, whole, recovers, among, nested⟩ :=
          recover_inside closes goesOn nested clearHere
        refine ⟨dropped, kept, illegals, whole, rest_eq ▸ recovers, among, nested, ?_⟩
        cases dropped with
        | nil =>
            rw [List.nil_append] at whole
            exact .inr ⟨rfl, whole ▸ refusal.named isIllegal⟩
        | cons first dropped =>
            cases whole
            exact .inl (among_single List.mem_cons_self place.symm)

end Recovery

/-- The errors stand at the tokens used, but for one at the next token if the last statement is cut
off there. -/
def Accounts (closing : Token) (used left : List Token) (issues : List Diagnostic) : Prop :=
  ∃ inside next, issues = inside ++ next ∧ Among used inside ∧ (next = [] ∨
    (∃ expected, next = [.unexpected expected (left.headD closing)]) ∧ CutOff used)

section Accounts

variable {closing : Token} {used more left : List Token} {issues others : List Diagnostic}

theorem accounts_nil : Accounts closing used left [] :=
  ⟨[], [], rfl, among_nil, .inl rfl⟩

theorem Accounts.behind (accounts : Accounts closing more left others) (among : Among used issues) :
    Accounts closing (used ++ more) left (issues ++ others) := by
  obtain ⟨inside, next, rfl, amongMore, last⟩ := accounts
  refine ⟨issues ++ inside, next, (List.append_assoc _ _ _).symm,
    (among.mono (List.subset_append_left _ _)).append
      (amongMore.mono (List.subset_append_right _ _)), ?_⟩
  exact last.imp_right fun refused => ⟨refused.1, refused.2.behind⟩

theorem Accounts.refused (accounts : Accounts closing more left others) (among : Among used issues)
    (cut : CutOff used) (expected : Text) : Accounts closing (used ++ more) left
      (issues ++ .unexpected expected ((more ++ left).headD closing) :: others) := by
  obtain ⟨inside, next, rfl, amongMore, last⟩ := accounts
  cases more with
  | nil =>
      have silent : next = [] := last.resolve_right fun refused => nomatch refused.2
      rw [amongMore.nothing, silent, List.append_nil]
      exact ⟨issues, _, rfl, among, .inr ⟨⟨expected, rfl⟩, cut⟩⟩
  | cons token more =>
      have amongToken : Among (token :: more) (.unexpected expected token :: inside) :=
        List.forall_mem_cons.mpr ⟨⟨token, List.mem_cons_self, rfl⟩, amongMore⟩
      exact Accounts.behind ⟨_, next, rfl, amongToken, last⟩ among

theorem Accounts.closed {brace : Token} (accounts : Accounts closing used (brace :: left) issues) :
    Among (used ++ [brace]) issues := by
  obtain ⟨inside, next, rfl, among, last⟩ := accounts
  refine (among.mono (List.subset_append_left used _)).append ?_
  rcases last with rfl | ⟨⟨expected, rfl⟩, _⟩
  · exact among_nil
  · exact among_single (List.mem_append_right used List.mem_cons_self) rfl

end Accounts

section Steps

variable {α β : Type} {strict laxer : Bool} {given : List Token} {finish : Pos} {closing : Token}
  {behind inner before : List Token} {depth : Nat}

theorem inside_expression {next : Expr → (rest : List Token) → rest <:+ inner ++ closing :: behind →
      (true = true → rest.length < (inner ++ closing :: behind).length) → Step β laxer rest}
    (closes : closing.kind = .rightBrace) (nested : nesting depth inner = some 0)
    (cut : before = [] ∨ CutOff before)
    (continues : ∀ value used left suffix spent, inner = used ++ left → left.length < inner.length →
      nesting depth left = some 0 → (before ++ used = [] ∨ CutOff (before ++ used)) →
      Inside finish closing behind depth (before ++ used) left
        (next value (left ++ closing :: behind) suffix spent)) :
    Inside finish closing behind depth before inner
      ((expression finish (inner ++ closing :: behind)).andThen next) := by
  have flat := expression_flat finish (inner ++ closing :: behind)
  refine (flat.inside rfl closes inline_level nested cut).andThen
    fun value used left rest suffix spent whole same nested found remains => ?_
  subst same
  have shorter := spent rfl
  simp only [List.length_append] at shorter
  refine continues value used left suffix spent whole (by omega) nested (cutOff_inline cut ?_)
  obtain ⟨_, usedToo, wholeToo, inline⟩ := flat.done value found
  rw [remains, whole, List.append_assoc] at wholeToo
  exact List.append_cancel_right wholeToo ▸ inline

theorem outcome_andThen_some {first : Step α strict given} {value : α} {rest left : List Token}
    {issues others : List Diagnostic} {result : Option β}
    {next : α → (rest : List Token) → rest <:+ given →
      (strict = true → rest.length < given.length) → Step β laxer rest}
    (read : first.outcome = (some value, rest, issues))
    (continues : ∀ suffix spent, (next value rest suffix spent).outcome = (result, left, others)) :
    (first.andThen next).outcome = (result, left, issues ++ others) := by
  obtain ⟨found, remains, errors, suffix, spent⟩ := first
  simp only [Step.outcome, Prod.mk.injEq] at read
  obtain ⟨rfl, rfl, rfl⟩ := read
  have second := continues suffix (spent rfl)
  simp only [Step.outcome, Prod.mk.injEq] at second
  obtain ⟨rfl, rfl, rfl⟩ := second
  rfl

theorem block_opened (finish : Pos) {opening : Token} (opens : opening.kind = .leftBrace)
    (rest : List Token) : (block finish (opening :: rest)).outcome =
      ((statements finish .rightBrace rest).andThen fun body more _ _ =>
        (expect finish .rightBrace (text "to close block") more).map
          fun _ => (body, opening.pos)).outcome := by
  rw [block]
  exact outcome_andThen (outcome_expect finish _ opens rest) fun _ _ => rfl

theorem block_issues (finish : Pos) {opening : Token} (opens : opening.kind = .leftBrace)
    (rest : List Token) : ∃ more, (block finish (opening :: rest)).issues =
      (statements finish .rightBrace rest).issues ++ more := by
  have opened := congrArg (·.2.2) (block_opened finish opens rest)
  exact (issues_andThen ..).imp fun _ issues => opened.trans issues

theorem block_closed (finish : Pos) {opening brace : Token} {rest left : List Token}
    {body : List Stmt} {issues : List Diagnostic} (opens : opening.kind = .leftBrace)
    (closes : brace.kind = .rightBrace)
    (read : (statements finish .rightBrace rest).outcome = (some body, brace :: left, issues)) :
    (block finish (opening :: rest)).outcome = (some (body, opening.pos), left, issues) := by
  rw [block_opened finish opens]
  refine (outcome_andThen_some read fun _ _ =>
    outcome_map _ (outcome_expect finish _ closes left)).trans ?_
  rw [List.append_nil]

end Steps

section Statements

variable (finish : Pos) {closing : Token} {behind : List Token}
  (closes : closing.kind = .rightBrace)

include closes

mutual

/-- The loop over the statements of a block comes to the brace that closes it. -/
theorem statements_inside (depth : Nat) (inner : List Token) :
    Framed closing behind depth inner →
    (∀ issue ∈ (statements finish .rightBrace (inner ++ closing :: behind)).issues,
      Clear inner issue) →
    ∃ used left body issues, inner = used ++ left ∧
      (statements finish .rightBrace (inner ++ closing :: behind)).outcome =
        (some body, left ++ closing :: behind, issues) ∧
      (left.headD closing).kind = .rightBrace ∧ nesting depth left = some 0 ∧
      Accounts closing used left issues := by
  have stops {token : Token} (rest : List Token) (level : token.kind = .rightBrace) :
      (statements finish .rightBrace (token :: rest)).outcome = (some [], token :: rest, []) := by
    rw [statements.eq_def]
    dsimp only
    rw [dif_pos (.inl level)]
    rfl
  cases inner with
  | nil =>
      intro framed _
      exact ⟨[], [], [], [], rfl, stops behind closes, closes, framed.nested, accounts_nil⟩
  | cons token rest =>
      intro framed clear
      by_cases level : token.kind = .rightBrace
      · exact ⟨[], token :: rest, [], [], rfl, stops _ level, level, framed.nested, accounts_nil⟩
      have more : token.kind ≠ .eof := framed.goesOn token List.mem_cons_self
      have goesOn : ¬(token.kind = .rightBrace ∨ token.kind = .eof) := not_or.mpr ⟨level, more⟩
      have stays := statement_inside depth token rest framed
      have later := recover_statement finish (rest ++ closing :: behind) more level
      have apart : ∀ other ∈ rest ++ closing :: behind, other.pos ≠ token.pos := by
        intro other inside same
        have places := framed.places
        rw [List.cons_append, List.map_cons, List.nodup_cons] at places
        exact places.1 (same ▸ List.mem_map_of_mem inside)
      rw [List.cons_append] at clear ⊢
      generalize read : statement finish (token :: (rest ++ closing :: behind)) = step
        at stays later
      obtain ⟨result, remains, issues, suffix, spent⟩ := step
      cases result with
      | some stmt =>
          have shorter := spent rfl rfl
          have found := statements_found goesOn (congrArg Step.outcome read)
          simp only [Step.outcome, Prod.mk.injEq] at found
          rw [found.2.2, List.forall_mem_append] at clear
          obtain ⟨used, left, whole, rfl, nested, among⟩ := stays.done clear.1 stmt rfl
          rw [whole] at framed clear
          have less : left.length < rest.length + 1 := by
            simp only [List.length_append, List.length_cons] at shorter
            omega
          obtain ⟨usedToo, leftToo, body, others, rfl, again, ends, nested, accounts⟩ :=
            statements_inside depth left (framed.left nested)
              fun issue inside => (clear.2 issue inside).behind
          simp only [Step.outcome, Prod.mk.injEq] at again
          refine ⟨used ++ usedToo, leftToo, stmt :: body, issues ++ others, ?_, ?_, ends, nested,
            accounts.behind among⟩
          · rw [whole, List.append_assoc]
          · simp [Step.outcome, found, again]
      | none =>
          have found := statements_failed goesOn (congrArg Step.outcome read)
          simp only [Step.outcome, Prod.mk.injEq] at found
          rw [found.2.2, List.forall_mem_append, List.forall_mem_append] at clear
          obtain ⟨used, left, others, issue, whole, nested, rfl, among, refusal, cut⟩ :=
            stays.refused clear.1.1 rfl
          rw [whole] at framed clear
          have framedLeft := framed.left nested
          obtain ⟨dropped, kept, illegals, rfl, recovers, amongDropped, nested, place⟩ :=
            refusal.recovers closes framedLeft.goesOn nested
              (clear.1.1 issue (List.mem_append_right _ List.mem_cons_self)).behind
          dsimp only at recovers later
          rw [recovers] at found later clear
          rw [stepOver_apart fun other inside => apart other (later.subset inside)] at found clear
          have less : kept.length ≤ rest.length := by simpa using later.length_le
          obtain ⟨usedToo, leftToo, body, more, rfl, again, ends, nested, accounts⟩ :=
            statements_inside depth kept (framedLeft.left nested)
              fun issue inside => (clear.2 issue inside).behind.behind
          simp only [Step.outcome, Prod.mk.injEq] at again
          refine ⟨used ++ (dropped ++ usedToo), leftToo, body,
            others ++ ([issue] ++ illegals ++ more),
            by simpa using whole, by simp [Step.outcome, found, again], ends, nested, ?_⟩
          rcases place with amongIssue | ⟨rfl, expected, rfl⟩
          · exact (accounts.behind (amongIssue.append amongDropped)).behind among
          · have goneOn : used ≠ [] := by
              rintro rfl
              have long := congrArg List.length whole
              simp only [List.length_append, List.length_cons, List.length_nil] at long less
              omega
            rw [amongDropped.nothing]
            exact accounts.refused among (cut.resolve_left goneOn) expected
termination_by 16 * inner.length + 3
decreasing_by all_goals (simp only [List.length_cons] at *; omega)

theorem statement_inside (depth : Nat) (token : Token) (rest : List Token)
    (framed : Framed closing behind depth (token :: rest)) :
    Inside finish closing behind depth [] (token :: rest)
      (statement finish (token :: (rest ++ closing :: behind))) := by
  have keyword {kind : Kind} (same : token.kind = kind) (goesOn : kind ≠ .semicolon)
      (opens : kind ≠ .leftBrace) (level : kind ≠ .rightBrace) :
      CutOff ([] ++ [token]) ∧ Framed closing behind depth rest := by
    have nested := framed.nested
    rw [nesting_other (same ▸ opens) (same ▸ level)] at nested
    rw [← List.singleton_append] at framed
    exact ⟨cutOff_concat (same ▸ goesOn) (same ▸ level), framed.left nested⟩
  rw [statement.eq_def]
  dsimp only
  split
  · next kind =>
      obtain ⟨cut, framedRest⟩ := keyword kind (by decide) (by decide) (by decide)
      exact .after (conditional_inside depth token.pos _ rest framedRest cut)
  · next kind =>
      obtain ⟨cut, framedRest⟩ := keyword kind (by decide) (by decide) (by decide)
      refine .after (inside_expression closes framedRest.nested (.inr cut)
        fun condition used left suffix spent whole shorter nested cutToo => ?_)
      exact (block_inside depth _ left ((whole ▸ framedRest).left nested) cutToo).map _
  · exact (block_inside depth [] (token :: rest) framed (.inl rfl)).map _
  · next kind =>
      obtain ⟨cut, framedRest⟩ := keyword kind (by decide) (by decide) (by decide)
      exact .after ((definition_flat finish _ token).inside rfl closes plain_level
        framedRest.nested (.inr cut))
  · next kind =>
      obtain ⟨cut, framedRest⟩ := keyword kind (by decide) (by decide) (by decide)
      exact .after ((definition_flat finish _ token).inside rfl closes plain_level
        framedRest.nested (.inr cut))
  · exact (simple_flat finish _).inside rfl closes plain_level framed.nested (.inl rfl)
termination_by 16 * (rest.length + 1) + 2
decreasing_by all_goals ((try rw [List.length_cons]); omega)

theorem conditional_inside (depth : Nat) (start : Pos) (before inner : List Token)
    (framed : Framed closing behind depth inner) (cut : CutOff before) :
    Inside finish closing behind depth before inner
      (conditional finish start (inner ++ closing :: behind)) := by
  rw [conditional]
  refine inside_expression closes framed.nested (.inr cut)
    fun condition used left suffix spent whole shorter nested cutToo => ?_
  rw [whole] at framed
  refine (block_inside depth _ left (framed.left nested) cutToo).andThen
    fun body inside last rest suffix spent wholeToo same remains _ _ => ?_
  subst same
  cases last with
  | nil =>
      dsimp only [List.nil_append]
      rw [if_neg (by rw [closes]; decide)]
      exact inside_done _ remains
  | cons token more =>
      dsimp only [List.cons_append]
      split
      · next isElse =>
          have shorterToo : more.length < left.length := by
            simp only [wholeToo, List.length_append, List.length_cons]
            omega
          have framedLast := (wholeToo ▸ framed.left nested).left remains
          rw [nesting_other (by rw [isElse]; decide) (by rw [isElse]; decide)] at remains
          rw [← List.singleton_append] at framedLast
          exact .after ((alternative_inside depth _ more (framedLast.left remains)
            (cutOff_concat (by rw [isElse]; decide) (by rw [isElse]; decide))).map _)
      · exact inside_done _ remains
termination_by 16 * inner.length + 2
decreasing_by all_goals omega

theorem alternative_inside (depth : Nat) (before inner : List Token) :
    Framed closing behind depth inner → CutOff before →
    Inside finish closing behind depth before inner
      (alternative finish (inner ++ closing :: behind)) := by
  rw [alternative.eq_def]
  cases inner with
  | nil =>
      intro framed cut
      dsimp only [List.nil_append]
      rw [if_neg (by rw [closes]; decide)]
      exact (block_inside depth before [] framed (.inr cut)).map _
  | cons token rest =>
      intro framed cut
      dsimp only [List.cons_append]
      split
      · next kind =>
          have nested := framed.nested
          rw [nesting_other (by rw [kind]; decide) (by rw [kind]; decide)] at nested
          rw [← List.singleton_append] at framed
          exact .after (conditional_inside depth token.pos (before ++ [token]) rest
            (framed.left nested) (cutOff_concat (by rw [kind]; decide) (by rw [kind]; decide)))
      · exact (block_inside depth before (token :: rest) framed (.inr cut)).map _
termination_by 16 * inner.length + 1
decreasing_by all_goals ((try rw [List.length_cons]); omega)

theorem block_inside (depth : Nat) (before inner : List Token) :
    Framed closing behind depth inner → before = [] ∨ CutOff before →
    Inside finish closing behind depth before inner
      (block finish (inner ++ closing :: behind)) := by
  by_cases opens : (inner.headD closing).kind = .leftBrace
  · cases inner with
    | nil =>
        rw [List.headD_nil, closes] at opens
        cases opens
    | cons opening rest =>
        rw [List.headD_cons] at opens
        intro framed cut
        have nested := framed.nested
        rw [nesting_leftBrace opens] at nested
        rw [← List.singleton_append] at framed
        have reads
            (clear : ∀ issue ∈ (block finish (opening :: (rest ++ closing :: behind))).issues,
            Clear (opening :: rest) issue) : ∃ used left value issues, opening :: rest = used
              ++ left ∧
              (block finish (opening :: (rest ++ closing :: behind))).outcome =
                (some value, left ++ closing :: behind, issues) ∧
              nesting depth left = some 0 ∧ Among used issues := by
          obtain ⟨more, issues⟩ := block_issues finish opens (rest ++ closing :: behind)
          rw [issues] at clear
          obtain ⟨used, left, body, issues, rfl, read, ends, nested, accounts⟩ :=
            statements_inside (depth + 1) rest (framed.left nested)
              fun issue inside => (clear issue (List.mem_append_left _ inside)).tail
          cases left with
          | nil => cases nested
          | cons brace left =>
              rw [List.headD_cons] at ends
              rw [nesting_rightBrace ends] at nested
              exact ⟨opening :: (used ++ [brace]), left, _, _, by simp,
                block_closed finish opens ends read, nested,
                accounts.closed.mono (List.subset_cons_self opening _)⟩
        refine ⟨fun clear _ _ => ?_, fun clear failed => ?_⟩
        · obtain ⟨used, left, value, issues, whole, read, nested, among⟩ := reads clear
          simp only [Step.outcome, Prod.mk.injEq] at read
          exact ⟨used, left, whole, read.2.1, nested, read.2.2 ▸ among⟩
        · obtain ⟨used, left, value, issues, whole, read, nested, among⟩ := reads clear
          cases failed.symm.trans (congrArg (·.1) read)
  · intro framed cut
    have refuses : expect finish .leftBrace (text "to open block") (inner ++ closing :: behind) =
        refuse finish (expect.expected .leftBrace (text "to open block"))
          (inner ++ closing :: behind) := by
      cases inner <;> exact expect_refuses _ opens
    rw [block, refuses]
    have flat : Flat finish Kind.inline (refuse finish (expect.expected .leftBrace
      (text "to open block")) (inner ++ closing :: behind) : Step Token true _) := flat_refuse _
    refine (flat.inside rfl closes inline_level framed.nested cut).andThen
      fun value _ _ _ _ _ _ _ _ found _ => ?_
    obtain ⟨issue, rest, failed, _⟩ : ∃ issue rest, (refuse finish (expect.expected .leftBrace
        (text "to open block")) (inner ++ closing :: behind) : Step Token true _).outcome =
          (none, rest, [issue]) ∧ _ := refusal_refuse _
    cases (congrArg (·.1) failed).symm.trans found
termination_by 16 * inner.length
decreasing_by all_goals ((try rw [List.length_cons]); omega)

end

end Statements

theorem statement_block {finish : Pos} {opening : Token} {rest : List Token}
    (opens : opening.kind = .leftBrace) :
    (statement finish (opening :: rest)).outcome = (block finish (opening :: rest)).outcome.map
      (Option.map fun body => .block body.1 body.2) id := by
  rw [statement.eq_def]
  simp only [opens]
  rfl

theorem statements_issues (finish : Pos) {closing : Kind} {token : Token} {rest : List Token}
    (goesOn : ¬(token.kind = closing ∨ token.kind = .eof)) :
    ∃ more, (statements finish closing (token :: rest)).issues =
      (statement finish (token :: rest)).issues ++ more := by
  rw [statements.eq_def]
  dsimp only
  rw [dif_neg goesOn]
  generalize statement finish (token :: rest) = step
  obtain ⟨_ | stmt, left, issues, suffix, spent⟩ := step
  · exact ⟨_, List.append_assoc ..⟩
  · exact ⟨_, rfl⟩

/-- Before tokens that are accepted, the errors of a block are at tokens inside it, but for one at
its closing brace if this brace cuts off the last statement. The block ends with this brace. -/
theorem errors_enclosed {inner others : List Token} {opening closing final : Token}
    {program : Program}
    (opens : opening.kind = .leftBrace) (closes : closing.kind = .rightBrace)
    (goesOn : ∀ token ∈ inner, token.kind ≠ .eof) (balanced : Balanced inner)
    (accepted : parseTokens (others ++ [final]) = .ok program)
    (places : ((opening :: inner ++ closing :: others ++ [final]).map Token.pos).Nodup)
    (clear : ∀ issue ∈ errors (opening :: inner ++ closing :: others ++ [final]),
      Clear inner issue) :
    ∃ inside next body,
      errors (opening :: inner ++ closing :: others ++ [final]) = inside ++ next ∧
      (∀ issue ∈ inside, issue.pos ∉ (closing :: others ++ [final]).map Token.pos) ∧
      (next = [] ∨ (∃ expected, next = [.unexpected expected closing]) ∧ CutOff inner) ∧
      (block final.pos (opening :: inner ++ closing :: others)).outcome =
        (some (body, opening.pos), others, inside ++ next) := by
  have given : opening :: inner ++ closing :: others = opening :: (inner ++ closing :: others) :=
    List.cons_append
  rw [parseTokens_append] at accepted
  obtain ⟨silent, _⟩ := program_ok_iff.mp accepted
  rw [errors_append, given] at clear ⊢
  have framed : Framed closing others 0 inner := by
    refine ⟨goesOn, ?_, balanced⟩
    rw [given, List.cons_append, List.map_cons, List.nodup_cons, List.map_append] at places
    exact (List.nodup_append.mp places.2).1
  have goesOnFirst : ¬(opening.kind = .eof ∨ opening.kind = .eof) := by
    rw [opens]
    decide
  have clearInner :
      ∀ issue ∈ (statements final.pos .rightBrace (inner ++ closing :: others)).issues,
      Clear inner issue := by
    have first : (statement final.pos (opening :: (inner ++ closing :: others))).issues =
        (block final.pos (opening :: (inner ++ closing :: others))).issues :=
      congrArg (·.2.2) (statement_block opens)
    obtain ⟨_, issues⟩ := statements_issues final.pos goesOnFirst
    obtain ⟨_, issuesBlock⟩ := block_issues final.pos opens (inner ++ closing :: others)
    rw [issues, first, issuesBlock, List.append_assoc] at clear
    exact fun issue inside => clear issue (List.mem_append_left _ inside)
  obtain ⟨used, left, body, found, rfl, read, ends, nested, inside, next, rfl, among, last⟩ :=
    statements_inside final.pos closes 0 inner framed clearInner
  cases left with
  | cons brace left =>
      rw [List.headD_cons] at ends
      rw [nesting, if_neg (by rw [ends]; decide), if_pos ends] at nested
      cases nested
  | nil =>
      have closed := block_closed final.pos opens closes read
      have read :=
        statements_found goesOnFirst ((statement_block opens).trans (by rw [closed]; rfl))
      refine ⟨inside, next, body, ?_, ?_, ?_, closed⟩
      · refine (congrArg (·.2.2) read).trans ?_
        rw [silent, List.append_nil]
      · intro issue member
        obtain ⟨token, isInside, place⟩ := among issue member
        rw [List.append_assoc, List.map_append, List.nodup_append] at places
        rw [← place]
        exact fun behind => places.2.2 _ (List.mem_map_of_mem
          (List.mem_cons_of_mem _ (List.mem_append_left [] isInside))) _ behind rfl
      · rwa [List.append_nil]

/-- Three lines in braces and a statement behind them: `x = ;`, `if y { z w; }` and `v`, then
`u;`. -/
def brokenInner : List Token :=
  [⟨.identifier, text "x", ⟨1, 3⟩⟩, ⟨.assign, [], ⟨1, 5⟩⟩, ⟨.semicolon, [], ⟨1, 7⟩⟩,
    ⟨.ifWord, [], ⟨2, 3⟩⟩, ⟨.identifier, text "y", ⟨2, 6⟩⟩, ⟨.leftBrace, [], ⟨2, 8⟩⟩,
    ⟨.identifier, text "z", ⟨2, 10⟩⟩, ⟨.identifier, text "w", ⟨2, 12⟩⟩, ⟨.semicolon, [], ⟨2, 13⟩⟩,
    ⟨.rightBrace, [], ⟨2, 15⟩⟩, ⟨.identifier, text "v", ⟨3, 3⟩⟩]

def brokenOthers : List Token := [⟨.identifier, text "u", ⟨5, 1⟩⟩, ⟨.semicolon, [], ⟨5, 2⟩⟩]

def broken : List Token :=
  ⟨.leftBrace, [], ⟨1, 1⟩⟩ :: brokenInner ++ ⟨.rightBrace, [], ⟨4, 1⟩⟩ :: brokenOthers ++
    [.finish ⟨6, 1⟩]

def brokenErrors : List Diagnostic :=
  [⟨text "expected expression, found ';'", ⟨1, 7⟩⟩,
    ⟨text "expected ';' after expression, found identifier \"w\"", ⟨2, 12⟩⟩,
    ⟨text "expected ';' after expression, found '\x7d'", ⟨4, 1⟩⟩]

theorem errors_enclosed_broken :
    (∀ token ∈ brokenInner, token.kind ≠ .eof) ∧ Balanced brokenInner ∧
      (∃ program, parseTokens (brokenOthers ++ [.finish ⟨6, 1⟩]) = .ok program) ∧
      (broken.map Token.pos).Nodup ∧ (∀ issue ∈ errors broken, Clear brokenInner issue) ∧
      errors broken = brokenErrors ∧
      ∃ body, (block ⟨6, 1⟩ broken.dropLast).outcome =
        (some (body, ⟨1, 1⟩), brokenOthers, brokenErrors) := by
  have goesOn : ∀ token ∈ brokenInner, token.kind ≠ .eof := by decide
  have balanced : Balanced brokenInner := by decide
  have accepted : parseTokens (brokenOthers ++ [.finish ⟨6, 1⟩]) =
      .ok ⟨[.eval (.name (text "u") ⟨5, 1⟩) ⟨5, 1⟩], ⟨5, 1⟩⟩ := by
    with_unfolding_all rfl
  have places : (broken.map Token.pos).Nodup := by decide
  have found : errors broken = brokenErrors := by with_unfolding_all rfl
  have clear : ∀ issue ∈ errors broken, Clear brokenInner issue := by
    rw [found]
    decide
  obtain ⟨inside, next, body, same, _, _, read⟩ :=
    errors_enclosed rfl rfl goesOn balanced accepted places clear
  refine ⟨goesOn, balanced, ⟨_, accepted⟩, places, clear, found, body, ?_⟩
  rw [← found]
  exact read.trans (by rw [← same]; rfl)

def inBraces (inner : List Token) (column : Nat) : List Token :=
  ⟨.leftBrace, [], ⟨1, 1⟩⟩ :: inner ++ ⟨.rightBrace, [], ⟨1, column⟩⟩ :: [.finish ⟨1, column + 1⟩]

/-- A statement that the closing brace cuts off, as in `x = ; y`. -/
def cutInner : List Token :=
  [⟨.identifier, text "x", ⟨1, 3⟩⟩, ⟨.assign, [], ⟨1, 5⟩⟩, ⟨.semicolon, [], ⟨1, 7⟩⟩,
    ⟨.identifier, text "y", ⟨1, 9⟩⟩]

/-- A brace that recovery goes past, as in `if ) { x; }`. -/
def skippedInner : List Token :=
  [⟨.ifWord, [], ⟨1, 3⟩⟩, ⟨.rightParen, [], ⟨1, 6⟩⟩, ⟨.leftBrace, [], ⟨1, 8⟩⟩,
    ⟨.identifier, text "x", ⟨1, 10⟩⟩, ⟨.semicolon, [], ⟨1, 11⟩⟩, ⟨.rightBrace, [], ⟨1, 13⟩⟩]

theorem errors_not_enclosed :
    ((∀ token ∈ cutInner, token.kind ≠ .eof) ∧ Balanced cutInner ∧
      ((inBraces cutInner 11).map Token.pos).Nodup ∧
      parseTokens [.finish ⟨1, 12⟩] = .ok ⟨[], ⟨1, 12⟩⟩ ∧
      errors (inBraces cutInner 11) = [⟨text "expected expression, found ';'", ⟨1, 7⟩⟩,
        ⟨text "expected ';' after expression, found '\x7d'", ⟨1, 11⟩⟩]) ∧
    (∀ token ∈ skippedInner, token.kind ≠ .eof) ∧ Balanced skippedInner ∧
      ((inBraces skippedInner 15).map Token.pos).Nodup ∧
      parseTokens [.finish ⟨1, 16⟩] = .ok ⟨[], ⟨1, 16⟩⟩ ∧
      errors (inBraces skippedInner 15) = [⟨text "expected expression, found ')'", ⟨1, 6⟩⟩,
        ⟨text "expected expression, found '\x7d'", ⟨1, 15⟩⟩] := by
  refine ⟨⟨by decide, by decide, by decide, ?_, ?_⟩, by decide, by decide, by decide, ?_, ?_⟩ <;>
    with_unfolding_all rfl

end Rover
