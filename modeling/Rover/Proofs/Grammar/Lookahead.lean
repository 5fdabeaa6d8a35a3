import Rover.Proofs.Grammar.Acceptance
import Rover.Proofs.Grammar.Refusal

/-!
The parser looks no further than the next token. What it reads without an error before some token,
and the first error that it finds up to there, stay the same whatever tokens come after, be it none
at all.
-/

namespace Rover

open Rover.Parser
open Rover.Parser.Step (outcome_andThen outcome_map)

/-- A step against the same step on other tokens. Both agree on tokens that they share: on what is
read without an error and leaves some of these tokens unread, or has nothing behind them, and on a
first error that stands at one of them. -/
structure Lookahead {α : Type} {strict : Bool} {given : List Token} (finish : Pos)
    (step : Step α strict given)
    (other : List Token → Option α × List Token × List Diagnostic) : Prop where
  located : ∀ issue others, step.issues = issue :: others →
    issue.pos = finish ∨ ∃ token ∈ given, token.pos = issue.pos
  value : ∀ shared behind instead tree left, given = shared ++ behind → step.issues = [] →
    step.result = some tree → step.rest = left ++ behind → left ≠ [] ∨ instead = [] →
      other (shared ++ instead) = (some tree, left ++ instead, [])
  error : ∀ shared behind instead issue others, given = shared ++ behind →
    step.issues = issue :: others → issue.pos ≠ finish → (∀ token ∈ behind, token.pos ≠ issue.pos) →
      ∃ others', (other (shared ++ instead)).2.2 = issue :: others'

section Steps

variable {α β : Type} {strict strict' laxer laxer' : Bool} {given : List Token}
  {finish finish' : Pos} {other : List Token → Option α × List Token × List Diagnostic}

theorem Lookahead.congr {step : Step α strict given}
    {same : List Token → Option α × List Token × List Diagnostic}
    (ahead : Lookahead finish step same) (equal : ∀ tokens, other tokens = same tokens) :
    Lookahead finish step other := by
  have := funext equal
  subst this
  exact ahead

theorem lookahead_done {value : α} (ended : other [] = (some value, [], []))
    (stays : ∀ token rest, given = token :: rest →
      ∀ more, other (token :: more) = (some value, token :: more, [])) :
    Lookahead finish (.done value given) other where
  located := nofun
  value := by
    rintro shared behind instead _ left whole - ⟨⟩ rest fits
    obtain rfl : left = shared := List.append_cancel_right (rest.symm.trans whole)
    cases left with
    | nil =>
        obtain rfl := fits.resolve_left (· rfl)
        exact ended
    | cons token more => exact stays token (more ++ behind) whole (more ++ instead)
  error := nofun

theorem Lookahead.after {rest : List Token} {step : Step α laxer rest} {token : Token}
    {beyond : List Token → Option α × List Token × List Diagnostic}
    (ahead : Lookahead finish step beyond) (same : ∀ more, other (token :: more) = beyond more) :
    Lookahead finish (step.after token : Step α strict (token :: rest)) other where
  located := by
    intro issue others found
    rcases ahead.located issue others found with ended | ⟨here, inside, place⟩
    · exact .inl ended
    · exact .inr ⟨here, List.mem_cons_of_mem token inside, place⟩
  value := by
    intro shared behind instead tree left whole silent result left' fits
    cases shared with
    | nil =>
        -- the first token is used up, so what is left cannot start with it
        have long := congrArg List.length whole
        have short := step.length_le
        have same' : step.rest.length = _ := congrArg List.length left'
        simp only [List.nil_append, List.length_append, List.length_cons] at long same'
        omega
    | cons first more =>
        obtain ⟨rfl, later⟩ := List.cons_eq_cons.mp (whole.trans List.cons_append)
        rw [List.cons_append, same]
        exact ahead.value more behind instead tree left later silent result left' fits
  error := by
    intro shared behind instead issue others whole found goesOn apart
    cases shared with
    | nil =>
        obtain ⟨here, inside, place⟩ := (ahead.located issue others found).resolve_left goesOn
        rw [List.nil_append] at whole
        exact absurd place (apart here (whole ▸ List.mem_cons_of_mem token inside))
    | cons first more =>
        obtain ⟨rfl, later⟩ := List.cons_eq_cons.mp (whole.trans List.cons_append)
        rw [List.cons_append, same]
        exact ahead.error more behind instead issue others later found goesOn apart

def Alike (one two : Option α × List Token × List Diagnostic) : Prop :=
  (one.2.2 = [] → two = one) ∧
    ∀ issue others, one.2.2 = issue :: others → ∃ others', two.2.2 = issue :: others'

theorem alike_of_eq {one two : Option α × List Token × List Diagnostic} (same : two = one) :
    Alike one two :=
  ⟨fun _ => same, fun _ others found => ⟨others, same ▸ found⟩⟩

theorem Lookahead.alike {token : Token} {rest : List Token} {step : Step α true (token :: rest)}
    {whole : Step α strict (token :: rest)}
    {same : List Token → Option α × List Token × List Diagnostic}
    (ahead : Lookahead finish step same) (alike : Alike step.outcome whole.outcome)
    (others : ∀ more, Alike (same (token :: more)) (other (token :: more))) :
    Lookahead finish whole other := by
  have failed {issue : Diagnostic} {issues : List Diagnostic}
      (found : whole.issues = issue :: issues) :
      ∃ issues', step.issues = issue :: issues' := by
    cases early : step.issues with
    | nil =>
        have same : whole.issues = step.issues := congrArg (·.2.2) (alike.1 early)
        cases (same.trans early).symm.trans found
    | cons head tail =>
        obtain ⟨_, found'⟩ := alike.2 head tail early
        cases found'.symm.trans found
        exact ⟨tail, rfl⟩
  refine ⟨fun issue issues found => ?_, ?_, ?_⟩
  · obtain ⟨issues', found⟩ := failed found
    exact ahead.located issue issues' found
  · intro shared behind instead tree left given silent result left' fits
    have silentStep : step.issues = [] := by
      cases early : step.issues with
      | nil => rfl
      | cons head tail =>
          obtain ⟨_, found⟩ := alike.2 head tail early
          cases silent.symm.trans found
    have equal := alike.1 silentStep
    simp only [Step.outcome, Prod.mk.injEq] at equal
    rw [equal.1] at result
    rw [equal.2.1] at left'
    cases shared with
    | nil =>
        have short := step.spent (by rw [result]; rfl) rfl
        rw [left', given, List.length_append, List.nil_append] at short
        omega
    | cons first more =>
        obtain ⟨rfl, _⟩ := List.cons_eq_cons.mp (given.trans List.cons_append)
        have read := ahead.value _ behind instead tree left given silentStep result left' fits
        rw [List.cons_append] at read ⊢
        rw [(others _).1 (congrArg (·.2.2) read), read]
  · intro shared behind instead issue issues given found goesOn apart
    obtain ⟨issues', found⟩ := failed found
    cases shared with
    | nil =>
        obtain ⟨here, inside, place⟩ := (ahead.located issue _ found).resolve_left goesOn
        rw [given, List.nil_append] at inside
        exact absurd place (apart here inside)
    | cons first more =>
        obtain ⟨rfl, _⟩ := List.cons_eq_cons.mp (given.trans List.cons_append)
        obtain ⟨_, error⟩ := ahead.error _ behind instead issue issues' given found goesOn apart
        rw [List.cons_append] at error ⊢
        exact (others _).2 issue _ error

theorem Lookahead.headed {token : Token} {rest : List Token} {step : Step α true (token :: rest)}
    {same : List Token → Option α × List Token × List Diagnostic}
    (ahead : Lookahead finish step same)
    (equal : ∀ more, other (token :: more) = same (token :: more)) :
    Lookahead finish step other :=
  ahead.alike (alike_of_eq rfl) fun more => alike_of_eq (equal more)

theorem Lookahead.map {step : Step α strict given} {convert : α → β}
    {lower : (tokens : List Token) → Step α strict' tokens}
    (ahead : Lookahead finish step fun tokens => (lower tokens).outcome) :
    Lookahead finish (step.map convert) fun tokens => ((lower tokens).map convert).outcome where
  located := ahead.located
  value := by
    intro shared behind instead tree left whole silent result rest fits
    obtain ⟨original, found, rfl⟩ := Option.map_eq_some_iff.mp result
    exact outcome_map convert
      (ahead.value shared behind instead original left whole silent found rest fits)
  error := ahead.error

theorem issues_andThen (first : Step α strict given)
    (next : α → (rest : List Token) → rest <:+ given →
      (strict = true → rest.length < given.length) → Step β laxer rest) :
    ∃ more, (first.andThen next).issues = first.issues ++ more := by
  cases found : first.result with
  | none => exact ⟨[], by rw [Step.andThen_of_none next found, List.append_nil]⟩
  | some value =>
      obtain ⟨_, _, _, issues⟩ := Step.andThen_of_some next found
      exact ⟨_, issues⟩

theorem Lookahead.andThen {first : Step α strict given}
    {next : α → (rest : List Token) → rest <:+ given →
      (strict = true → rest.length < given.length) → Step β laxer rest}
    {lower : (tokens : List Token) → Step α strict' tokens}
    {lowerNext : (tokens : List Token) → α → (rest : List Token) → rest <:+ tokens →
      (strict' = true → rest.length < tokens.length) → Step β laxer' rest}
    {onward : α → List Token → Option β × List Token × List Diagnostic}
    (begins : Lookahead finish first fun tokens => (lower tokens).outcome)
    (same : ∀ tokens value rest suffix spent,
      (lowerNext tokens value rest suffix spent).outcome = onward value rest)
    (continues : ∀ value rest suffix spent,
      Lookahead finish (next value rest suffix spent) (onward value)) :
    Lookahead finish (first.andThen next)
      fun tokens => ((lower tokens).andThen (lowerNext tokens)).outcome := by
  have errs {tokens : List Token} {issue : Diagnostic}
      (found : ∃ others, (lower tokens).outcome.2.2 = issue :: others) :
      ∃ others, ((lower tokens).andThen (lowerNext tokens)).outcome.2.2 = issue :: others := by
    obtain ⟨others, found⟩ := found
    obtain ⟨more, issues⟩ := issues_andThen (lower tokens) (lowerNext tokens)
    exact ⟨others ++ more, issues.trans (congrArg (· ++ more) found)⟩
  obtain ⟨result, rest, issues, suffix, spent⟩ := first
  cases result with
  | none =>
      refine ⟨begins.located, ?_, fun shared behind instead issue others whole found goesOn apart =>
        errs (begins.error shared behind instead issue others whole found goesOn apart)⟩
      rintro _ _ _ _ _ _ _ ⟨⟩
  | some tree =>
      have later := continues tree rest suffix (spent rfl)
      generalize second : next tree rest suffix (spent rfl) = step at later
      have equal : (Step.andThen ⟨some tree, rest, issues, suffix, spent⟩ next).outcome =
          (step.result, step.rest, issues ++ step.issues) := by
        rw [← second]
        rfl
      simp only [Step.outcome, Prod.mk.injEq] at equal
      obtain ⟨equalResult, equalRest, equalIssues⟩ := equal
      -- the first step on the other tokens, where it leaves shared tokens unread
      have reads {shared behind instead middle : List Token} (whole : given = shared ++ behind)
          (silent : issues = []) (left : rest = middle ++ behind)
          (fits : middle ≠ [] ∨ instead = []) :
          ((lower (shared ++ instead)).andThen (lowerNext (shared ++ instead))).outcome =
            onward tree (middle ++ instead) :=
        outcome_andThen (begins.value shared behind instead tree middle whole silent rfl left fits)
          fun _ _ => same _ _ _ _ _
      have splits {shared behind : List Token} (whole : given = shared ++ behind)
          (long : behind.length ≤ rest.length) : ∃ middle, rest = middle ++ behind := by
        obtain ⟨middle, split⟩ := List.suffix_of_suffix_length_le
          ⟨shared, whole.symm⟩ suffix long
        exact ⟨middle, split.symm⟩
      refine ⟨fun issue others found => ?_, ?_, ?_⟩
      · rw [equalIssues] at found
        cases issues with
        | cons head more =>
            cases found
            exact begins.located _ _ rfl
        | nil =>
            rcases later.located issue others found with ended | ⟨token, inside, place⟩
            · exact .inl ended
            · exact .inr ⟨token, suffix.subset inside, place⟩
      · intro shared behind instead final left whole silent found left' fits
        rw [equalIssues, List.append_eq_nil_iff] at silent
        rw [equalResult] at found
        rw [equalRest] at left'
        have long := step.length_le
        rw [left', List.length_append] at long
        obtain ⟨middle, split⟩ := splits whole (by omega)
        have fitsToo : middle ≠ [] ∨ instead = [] := by
          refine fits.imp_left fun nonempty none => nonempty ?_
          rw [split, none, List.nil_append] at long
          exact List.length_eq_zero_iff.mp (by omega)
        rw [reads whole silent.1 split fitsToo]
        exact later.value middle behind instead final left split silent.2 found left' fits
      · intro shared behind instead issue others whole found goesOn apart
        rw [equalIssues] at found
        cases issues with
        | cons head more =>
            cases found
            exact errs (begins.error shared behind instead _ _ whole rfl goesOn apart)
        | nil =>
            by_cases long : behind.length < rest.length
            · obtain ⟨middle, split⟩ := splits whole (Nat.le_of_lt long)
              have nonempty : middle ≠ [] := by
                rintro rfl
                rw [split] at long
                exact Nat.lt_irrefl _ long
              obtain ⟨others', error⟩ :=
                later.error middle behind instead issue others split found goesOn apart
              exact ⟨others', by rw [reads whole rfl split (.inl nonempty), error]⟩
            · -- the second step starts behind the shared tokens, and so does its error
              have inside : rest <:+ behind :=
                List.suffix_of_suffix_length_le suffix ⟨shared, whole.symm⟩ (Nat.not_lt.mp long)
              obtain ⟨token, member, place⟩ :=
                (later.located issue others found).resolve_left goesOn
              exact absurd place (apart token (inside.subset member))

theorem lookahead_nil {step : Step α true []}
    (located : ∀ issue others, step.issues = issue :: others → issue.pos = finish) :
    Lookahead finish step other where
  located issue others found := .inl (located issue others found)
  value := by
    intro _ _ _ _ _ _ _ result
    exact absurd (step.spent (by rw [result]; rfl) rfl) (Nat.not_lt_zero _)
  error := fun _ _ _ issue others _ found goesOn => absurd (located issue others found) goesOn

theorem Lookahead.ended {step : Step α true []}
    {same : List Token → Option α × List Token × List Diagnostic}
    (ahead : Lookahead finish step same) : Lookahead finish step other :=
  lookahead_nil fun issue others found =>
    (ahead.located issue others found).resolve_right fun ⟨_, inside, _⟩ => nomatch inside

theorem lookahead_fail {token : Token} {rest left : List Token}
    {step : Step α strict (token :: rest)}
    {issue : Diagnostic} (here : issue.pos = token.pos)
    (failed : step.outcome = (none, left, [issue]))
    (same : ∀ more, (other (token :: more)).2.2 = [issue]) : Lookahead finish step other := by
  simp only [Step.outcome, Prod.mk.injEq] at failed
  obtain ⟨result, _, issues⟩ := failed
  refine ⟨fun _ _ found => ?_, fun _ _ _ _ _ _ _ found => ?_,
    fun shared behind instead _ others whole found goesOn apart => ?_⟩
  · cases issues.symm.trans found
    exact .inr ⟨token, List.mem_cons_self, here.symm⟩
  · cases result.symm.trans found
  · cases issues.symm.trans found
    cases shared with
    | nil =>
        rw [List.nil_append] at whole
        exact absurd here.symm (apart token (whole ▸ List.mem_cons_self))
    | cons first more =>
        obtain ⟨rfl, _⟩ := List.cons_eq_cons.mp (whole.trans List.cons_append)
        exact ⟨[], same _⟩

theorem lookahead_refuse (expected : Text) {token : Token} {rest : List Token}
    (same : ∀ more, other (token :: more) =
      (refuse finish' expected (token :: more) : Step α strict' (token :: more)).outcome) :
    Lookahead finish (refuse finish expected (token :: rest) : Step α strict (token :: rest))
      other := by
  by_cases isIllegal : token.kind = .illegal
  · refine lookahead_fail rfl ((refuse_cons expected token rest).trans (if_pos isIllegal))
      fun more => ?_
    rw [same, refuse_cons, if_pos isIllegal]
  · refine lookahead_fail rfl ((refuse_cons expected token rest).trans (if_neg isIllegal))
      fun more => ?_
    rw [same, refuse_cons, if_neg isIllegal]

theorem lookahead_expect (finish finish' : Pos) (kind : Kind) (context : Text) :
    Lookahead finish (expect finish kind context given)
      fun tokens => (expect finish' kind context tokens).outcome := by
  cases given with
  | nil =>
      refine lookahead_nil ?_
      rintro _ _ ⟨⟩
      rfl
  | cons token rest =>
      rw [expect]
      split
      · next same =>
          have taken (more : List Token) :
              (expect finish' kind context (token :: more)).outcome = (some token, more, []) :=
            outcome_expect finish' context same more
          exact (lookahead_done rfl fun _ _ _ _ => rfl : Lookahead finish (.done token rest)
            fun more => (some token, more, [])).after taken
      · next differs =>
          exact lookahead_refuse _ fun more => congrArg Step.outcome (if_neg differs)

end Steps

section Onward

variable (finish : Pos)

/-- An operand goes on with a sign and an expression, if it does. -/
def continuation (kind : Kind) (op : BinaryOp) (left : Expr) : (given : List Token) →
    Step Expr false given
  | [] => .done left []
  | token :: rest =>
      if token.kind = kind then
        .after token ((expression finish rest).map fun right => .binary op left right token.pos)
      else .done left (token :: rest)

theorem expression_continuation (given : List Token) :
    expression finish given = (disjunction finish given).andThen fun left rest _ _ =>
      continuation finish .assign .assign left rest := by
  rw [expression]
  congr 1
  funext left rest _ _
  cases rest <;> rfl

theorem conjunction_continuation (given : List Token) :
    conjunction finish given = (operation finish .equality given).andThen fun left rest _ _ =>
      continuation finish .and .and left rest := by
  rw [conjunction]
  congr 1
  funext left rest _ _
  cases rest <;> rfl

def furtherItems (closing : Kind) (what : Text) (item : Expr) : (given : List Token) →
    Step (List Expr) true given
  | [] => (expect finish closing (text "after " ++ what ++ text " list") []).map fun _ => [item]
  | token :: rest =>
      if token.kind = .comma then
        .after token ((items finish closing what rest).map (item :: ·))
      else
        (expect finish closing (text "after " ++ what ++ text " list") (token :: rest)).map
          fun _ => [item]

theorem items_further (closing : Kind) (what : Text) (given : List Token) :
    items finish closing what given = (expression finish given).andThen fun item rest _ _ =>
      furtherItems finish closing what item rest := by
  rw [items]
  congr 1
  funext item rest _ _
  cases rest <;> rfl

end Onward

section Expressions

variable {finish finish' : Pos}

theorem continuation_ahead {kind : Kind} {op : BinaryOp} (left : Expr) {given : List Token}
    (ahead : ∀ token rest, given = token :: rest →
      Lookahead finish (expression finish rest) fun tokens => (expression finish' tokens).outcome) :
    Lookahead finish (continuation finish kind op left given) fun tokens =>
      (continuation finish' kind op left tokens).outcome := by
  cases given with
  | nil => exact lookahead_done rfl nofun
  | cons token rest =>
      rw [continuation]
      split
      · next goesOn => exact (ahead token rest rfl).map.after fun _ => congrArg _ (if_pos goesOn)
      · next stops =>
          refine lookahead_done rfl ?_
          rintro _ _ ⟨⟩ _
          exact congrArg _ (if_neg stops)

variable (finish finish')

mutual

theorem expression_ahead (given : List Token) :
    Lookahead finish (expression finish given) fun tokens =>
      (expression finish' tokens).outcome := by
  rw [expression_continuation]
  refine .congr ((disjunction_ahead given).andThen (fun _ _ _ _ _ => rfl)
    fun left rest _ spent => ?_) fun tokens => congrArg _ (expression_continuation finish' tokens)
  refine continuation_ahead left fun token more same => ?_
  have shorter : more.length + 1 < given.length := by simpa [same] using spent rfl
  exact expression_ahead more
termination_by 16 * given.length + 12
decreasing_by all_goals omega

theorem disjunction_ahead (given : List Token) :
    Lookahead finish (disjunction finish given) fun tokens =>
      (disjunction finish' tokens).outcome := by
  rw [disjunction]
  refine .congr ((conjunction_ahead given).andThen (fun _ _ _ _ _ => rfl)
    fun left rest _ spent => ?_) fun tokens => congrArg _ (disjunction.eq_def finish' tokens)
  have shorter := spent rfl
  exact disjuncts_ahead left rest
termination_by 16 * given.length + 11
decreasing_by all_goals omega

theorem disjuncts_ahead (left : Expr) (given : List Token) :
    Lookahead finish (disjuncts finish left given) fun tokens =>
      (disjuncts finish' left tokens).outcome := by
  rw [disjuncts.eq_def]
  refine .congr ?_ fun tokens => congrArg _ (disjuncts.eq_def finish' left tokens)
  cases given with
  | nil => exact lookahead_done rfl nofun
  | cons token rest =>
      dsimp only
      split
      · next isOr =>
          refine .after ((conjunction_ahead rest).andThen (fun _ _ _ _ _ => rfl)
            fun right more _ spent => ?_) fun _ => congrArg _ (if_pos isOr)
          have shorter := spent rfl
          exact disjuncts_ahead _ more
      · next other =>
          refine lookahead_done rfl ?_
          rintro _ _ ⟨⟩ _
          exact congrArg _ (if_neg other)
termination_by 16 * given.length
decreasing_by all_goals (rw [List.length_cons]; omega)

theorem conjunction_ahead (given : List Token) :
    Lookahead finish (conjunction finish given) fun tokens =>
      (conjunction finish' tokens).outcome := by
  rw [conjunction_continuation]
  refine .congr ((operation_ahead .equality given).andThen (fun _ _ _ _ _ => rfl)
    fun left rest _ spent => ?_) fun tokens => congrArg _ (conjunction_continuation finish' tokens)
  refine continuation_ahead left fun token more same => ?_
  have shorter : more.length + 1 < given.length := by simpa [same] using spent rfl
  exact expression_ahead more
termination_by 16 * given.length + 10
decreasing_by all_goals ((try rw [Tier.height]); omega)

theorem operation_ahead (tier : Tier) (given : List Token) :
    Lookahead finish (operation finish tier given) fun tokens =>
      (operation finish' tier tokens).outcome := by
  rw [operation]
  refine .congr ((operand_ahead tier given).andThen (fun _ _ _ _ _ => rfl)
    fun left rest _ spent => ?_) fun tokens => congrArg _ (operation.eq_def finish' tier tokens)
  have shorter := spent rfl
  exact operands_ahead tier left rest
termination_by 16 * given.length + 2 * tier.height + 3
decreasing_by all_goals omega

theorem operands_ahead (tier : Tier) (left : Expr) (given : List Token) :
    Lookahead finish (operands finish tier left given) fun tokens =>
      (operands finish' tier left tokens).outcome := by
  rw [operands.eq_def]
  refine .congr ?_ fun tokens => congrArg _ (operands.eq_def finish' tier left tokens)
  cases given with
  | nil => exact lookahead_done rfl nofun
  | cons token rest =>
      dsimp only
      cases found : tier.operator? token.kind with
      | none =>
          refine lookahead_done rfl ?_
          rintro _ _ ⟨⟩ _
          simp only [found]
          rfl
      | some op =>
          refine .after ((operand_ahead tier rest).andThen (fun _ _ _ _ _ => rfl)
            fun right more _ spent => ?_) fun _ => by
              simp only [found]
              rfl
          have shorter := spent rfl
          exact operands_ahead tier _ more
termination_by 16 * given.length
decreasing_by
  all_goals
    have := Tier.height_le tier
    rw [List.length_cons]
    omega

theorem operand_ahead (tier : Tier) (given : List Token) :
    Lookahead finish (operand finish tier given) fun tokens =>
      (operand finish' tier tokens).outcome := by
  rw [operand.eq_def]
  refine .congr ?_ fun tokens => congrArg _ (operand.eq_def finish' tier tokens)
  cases tier with
  | equality => exact operation_ahead .comparison given
  | comparison => exact operation_ahead .sum given
  | sum => exact operation_ahead .product given
  | product => exact unary_ahead given
termination_by 16 * given.length + 2 * tier.height + 2
decreasing_by all_goals simp [Tier.height]

theorem unary_ahead (given : List Token) :
    Lookahead finish (unary finish given) fun tokens => (unary finish' tokens).outcome := by
  cases given with
  | nil =>
      refine lookahead_nil ?_
      rw [unary, postfixed]
      rintro _ _ ⟨⟩
      rfl
  | cons token rest =>
      have same (more : List Token) := congrArg Step.outcome (unary.eq_def finish' (token :: more))
      revert same
      rw [unary.eq_def]
      dsimp only
      cases unaryOperator? token.kind with
      | some op => exact fun same => (unary_ahead rest).map.after same
      | none => exact fun same => postfixed_ahead token rest same
termination_by 16 * given.length + 1
decreasing_by all_goals ((try rw [List.length_cons]); omega)

theorem postfixed_ahead (token : Token) (rest : List Token)
    {other : List Token → Option Expr × List Token × List Diagnostic}
    (equal : ∀ more, other (token :: more) = (postfixed finish' (token :: more)).outcome) :
    Lookahead finish (postfixed finish (token :: rest)) other := by
  have same (more : List Token) :=
    (equal more).trans (congrArg Step.outcome (postfixed.eq_def finish' (token :: more)))
  clear equal
  revert same
  rw [postfixed.eq_def]
  dsimp only
  split
  · exact fun same => (suffixes_ahead _ rest).after same
  · exact fun same => (suffixes_ahead _ rest).after same
  · exact fun same => (suffixes_ahead _ rest).after same
  · exact fun same => (suffixes_ahead _ rest).after same
  · refine fun same => .after ((expression_ahead rest).andThen (fun _ _ _ _ _ => rfl)
      fun inner more _ spent => ?_) same
    refine (lookahead_expect finish finish' .rightParen _).andThen (fun _ _ _ _ _ => rfl)
      fun _ left _ spentToo => ?_
    have shorter := spent rfl
    have shorterToo := spentToo rfl
    exact suffixes_ahead inner left
  · refine fun same => .after ((list_ahead .rightSquare _ rest).andThen (fun _ _ _ _ _ => rfl)
      fun elements more _ spent => ?_) same
    have shorter := spent rfl
    exact suffixes_ahead _ more
  · exact lookahead_refuse _
termination_by 16 * (rest.length + 1)
decreasing_by all_goals omega

theorem suffixes_ahead (base : Expr) (given : List Token) :
    Lookahead finish (suffixes finish base given) fun tokens =>
      (suffixes finish' base tokens).outcome := by
  cases given with
  | nil =>
      rw [suffixes]
      refine lookahead_done ?_ nofun
      rw [suffixes]
      rfl
  | cons token rest =>
      have same (more : List Token) :=
        congrArg Step.outcome (suffixes.eq_def finish' base (token :: more))
      revert same
      rw [suffixes.eq_def]
      dsimp only
      split
      · refine fun same => .after ((list_ahead .rightParen _ rest).andThen (fun _ _ _ _ _ => rfl)
          fun arguments more _ spent => ?_) same
        have shorter := spent rfl
        exact suffixes_ahead _ more
      · refine fun same => .after ((expression_ahead rest).andThen (fun _ _ _ _ _ => rfl)
          fun index more _ spent => ?_) same
        refine (lookahead_expect finish finish' .rightSquare _).andThen (fun _ _ _ _ _ => rfl)
          fun _ left _ spentToo => ?_
        have shorter := spent rfl
        have shorterToo := spentToo rfl
        exact suffixes_ahead _ left
      · intro same
        refine lookahead_done ?_ ?_
        · rw [suffixes]
          rfl
        · rintro _ _ ⟨⟩ more
          exact same more
termination_by 16 * given.length
decreasing_by all_goals (rw [List.length_cons]; omega)

theorem list_ahead (closing : Kind) (what : Text) (given : List Token) :
    Lookahead finish (list finish closing what given) fun tokens =>
      (list finish' closing what tokens).outcome := by
  have inside := items_ahead closing what given
  have same (tokens : List Token) := congrArg Step.outcome (list.eq_def finish' closing what tokens)
  rw [list]
  split
  · next empty =>
      cases given with
      | nil =>
          refine lookahead_nil ?_
          rintro _ _ ⟨⟩
          rfl
      | cons token rest =>
          refine lookahead_fail rfl rfl fun more => ?_
          rw [same, if_pos (show (peek finish' (token :: more)).kind = closing from empty)]
          rfl
  · next goesOn =>
      cases given with
      | nil => exact inside.ended
      | cons token rest =>
          exact inside.headed fun more => (same (token :: more)).trans
            (congrArg Step.outcome (if_neg goesOn))
termination_by 16 * given.length + 14
decreasing_by all_goals omega

theorem items_ahead (closing : Kind) (what : Text) (given : List Token) :
    Lookahead finish (items finish closing what given) fun tokens =>
      (items finish' closing what tokens).outcome := by
  rw [items_further]
  refine .congr ((expression_ahead given).andThen (fun _ _ _ _ _ => rfl)
    fun item rest _ spent => ?_) fun tokens =>
      congrArg _ (items_further finish' closing what tokens)
  cases rest with
  | nil =>
      refine lookahead_nil ?_
      rintro _ _ ⟨⟩
      rfl
  | cons token more =>
      have shorter : more.length + 1 < given.length := spent rfl
      rw [furtherItems]
      split
      · next comma =>
          exact (items_ahead closing what more).map.after fun _ => congrArg _ (if_pos comma)
      · next other =>
          exact (lookahead_expect finish finish' closing _).map.headed fun _ =>
            congrArg _ (if_neg other)
termination_by 16 * given.length + 13
decreasing_by all_goals omega

end

end Expressions

end Rover
