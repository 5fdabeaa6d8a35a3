import Rover.Proofs.Grammar.Complaints
import Rover.Proofs.Grammar.Inline
import Rover.Proofs.Grammar.Viable

/-!
Errors in simple statements are apart from each other. What is read of such a statement and what is
said of it are settled by its own tokens, up to the semicolon, and behind the semicolon the next one
is read as if nothing had been before it.
-/

namespace Rover

open Rover.Parser
open Rover.Parser.Step (outcome_andThen)

/-- Runs up to a bar. The tokens before it settle what a run does, wherever the source ends and
whatever stands behind the bar. -/
abbrev Run (α : Type) := Pos → List Token → Option α × List Token × List Diagnostic

abbrev Run.of {α : Type} {strict : Bool} (step : Pos → (given : List Token) → Step α strict given) :
    Run α :=
  fun finish given => (step finish given).outcome

section Runs

variable {α β : Type} {run : Run α} {front : List Token} {bar : Token}

/-- A result is found before the bar. -/
def Run.Stays (run : Run α) (front : List Token) (bar : Token) : Prop :=
  ∃ value left, left <:+ front ∧ ∀ finish behind,
    run finish (front ++ bar :: behind) = (some value, left ++ bar :: behind, [])

def Run.Ends (run : Run α) (front : List Token) (bar : Token) : Prop :=
  ∃ value, ∀ finish behind, run finish (front ++ bar :: behind) = (some value, behind, [])

def Run.Fails (run : Run α) (front : List Token) (bar : Token) : Prop :=
  ∃ issue left, left <:+ front ∧ ∀ finish behind,
    run finish (front ++ bar :: behind) = (none, left ++ bar :: behind, [issue])

def Run.Within (run : Run α) (front : List Token) (bar : Token) : Prop :=
  run.Stays front bar ∨ run.Fails front bar

/-- The bar is the last token read, or it is not read. -/
def Run.Through (run : Run α) (front : List Token) (bar : Token) : Prop :=
  run.Ends front bar ∨ run.Fails front bar

theorem fails_refuse (expected : Text) (legal : bar.kind ≠ .illegal)
    (refuses : ∀ finish behind, run finish (front ++ bar :: behind) =
      (refuse finish expected (front ++ bar :: behind) : Step α true _).outcome) :
    run.Fails front bar := by
  cases front with
  | nil =>
      refine ⟨.unexpected expected bar, [], List.suffix_refl [], fun finish behind => ?_⟩
      rw [refuses]
      exact (refuse_cons expected bar behind).trans (if_neg legal)
  | cons token rest =>
      by_cases isIllegal : token.kind = .illegal
      · refine ⟨⟨token.text, token.pos⟩, rest, List.suffix_cons token rest, fun finish behind => ?_⟩
        rw [refuses]
        exact (refuse_cons expected token _).trans (if_pos isIllegal)
      · refine ⟨.unexpected expected token, token :: rest, List.suffix_refl _,
          fun finish behind => ?_⟩
        rw [refuses]
        exact (refuse_cons expected token _).trans (if_neg isIllegal)

theorem expect_refuses {finish : Pos} {kind : Kind} (context : Text) {token : Token}
    {rest : List Token} (other : token.kind ≠ kind) :
    expect finish kind context (token :: rest) =
      refuse finish (expect.expected kind context) (token :: rest) := by
  rw [expect]
  exact if_neg other

theorem expect_within {kind : Kind} (context : Text) (legal : bar.kind ≠ .illegal)
    (other : bar.kind ≠ kind) :
    (Run.of fun finish given => expect finish kind context given).Within front bar := by
  cases front with
  | nil =>
      exact .inr (fails_refuse _ legal fun finish behind =>
        congrArg Step.outcome (expect_refuses context other))
  | cons token rest =>
      by_cases same : token.kind = kind
      · exact .inl ⟨token, rest, List.suffix_cons token rest,
          fun finish behind => outcome_expect finish context same _⟩
      · exact .inr (fails_refuse _ legal fun finish behind =>
          congrArg Step.outcome (expect_refuses context same))

theorem expect_through (context : Text) (closes : bar.kind = .semicolon)
    (others : ∀ token ∈ front, token.kind ≠ .semicolon) :
    (Run.of fun finish given => expect finish .semicolon context given).Through front bar := by
  cases front with
  | nil => exact .inl ⟨bar, fun finish behind => outcome_expect finish context closes behind⟩
  | cons token rest =>
      exact .inr (fails_refuse _ (by rw [closes]; decide) fun finish behind =>
        congrArg Step.outcome (expect_refuses context (others token List.mem_cons_self)))

theorem through_map {strict : Bool} {step : Pos → (given : List Token) → Step α strict given}
    (through : (Run.of step).Through front bar) (convert : α → β) :
    (Run.of fun finish given => (step finish given).map convert).Through front bar := by
  have mapped (finish : Pos) (given : List Token) : ((step finish given).map convert).outcome =
      (step finish given).outcome.map (Option.map convert) id := rfl
  rcases through with ⟨value, same⟩ | ⟨issue, left, suffix, same⟩
  · refine .inl ⟨convert value, fun finish behind => (mapped ..).trans ?_⟩
    exact congrArg (Prod.map (Option.map convert) id) (same finish behind)
  · refine .inr ⟨issue, left, suffix, fun finish behind => (mapped ..).trans ?_⟩
    exact congrArg (Prod.map (Option.map convert) id) (same finish behind)

theorem through_andThen {strict laxer : Bool}
    {first : Pos → (given : List Token) → Step α strict given}
    {next : Pos → (given : List Token) → α → (rest : List Token) → rest <:+ given →
      (strict = true → rest.length < given.length) → Step β laxer rest}
    {onward : α → Run β} (within : (Run.of first).Within front bar)
    (same : ∀ finish behind value rest suffix spent,
      (next finish (front ++ bar :: behind) value rest suffix spent).outcome =
      onward value finish rest)
    (continues : ∀ value left, left <:+ front → (onward value).Through left bar) :
    (Run.of fun finish given => (first finish given).andThen (next finish given)).Through
      front bar := by
  rcases within with ⟨value, left, suffix, found⟩ | ⟨issue, left, suffix, failed⟩
  · have reads (finish : Pos) (behind : List Token) :
        ((first finish (front ++ bar :: behind)).andThen
          (next finish (front ++ bar :: behind))).outcome =
            onward value finish (left ++ bar :: behind) :=
      outcome_andThen (found finish behind) fun _ _ => same ..
    rcases continues value left suffix with ⟨final, ends⟩ | ⟨issue, rest, shorter, fails⟩
    · exact .inl ⟨final, fun finish behind => (reads finish behind).trans (ends finish behind)⟩
    · exact .inr ⟨issue, rest, shorter.trans suffix,
        fun finish behind => (reads finish behind).trans (fails finish behind)⟩
  · exact .inr ⟨issue, left, suffix, fun finish behind =>
      outcome_andThen_none (failed finish behind)⟩

end Runs

section Expressions

variable {front : List Token} {bar : Token}

theorem split_before {used left behind : List Token} (apart : bar ∉ used)
    (whole : front ++ bar :: behind = used ++ left) :
    ∃ more, front = used ++ more ∧ left = more ++ bar :: behind := by
  rcases List.append_eq_append_iff.mp whole with ⟨extra, rfl, rest⟩ | ⟨more, rfl, rest⟩
  · cases extra with
    | nil => exact ⟨[], by simp, rest.symm⟩
    | cons first extra =>
        cases rest
        exact absurd (by simp) apart
  · exact ⟨more, rfl, rest⟩

theorem left_unique {used more other left : List Token} (whole : used ++ more = other ++ left)
    (places : ((used ++ more ++ [bar]).map Token.pos).Nodup)
    (same : (more.headD bar).pos = (left.headD bar).pos) : more = left := by
  have further {extra rest : List Token} (apart : ((extra ++ rest ++ [bar]).map Token.pos).Nodup)
      (same : ((extra ++ rest).headD bar).pos = (rest.headD bar).pos) : extra = [] := by
    cases extra with
    | nil => rfl
    | cons first extra =>
        rw [List.cons_append, List.cons_append, List.map_cons, List.nodup_cons] at apart
        refine absurd ?_ apart.1
        rw [show first.pos = (rest.headD bar).pos from same]
        exact List.mem_map_of_mem (by cases rest <;> simp)
  rcases List.append_eq_append_iff.mp whole with ⟨extra, rfl, rfl⟩ | ⟨extra, rfl, rfl⟩
  · rw [List.append_assoc used, List.map_append, List.nodup_append] at places
    rw [further places.2.1 same, List.nil_append]
  · rw [List.append_assoc other, List.append_assoc other, List.map_append,
      List.nodup_append] at places
    rw [further places.2.1 same.symm, List.nil_append]

theorem peek_bar (finish : Pos) (more behind : List Token) :
    peek finish (more ++ bar :: behind) = more.headD bar := by
  cases more <;> rfl

/-- An illegal token is not left, and the bar always is. -/
theorem Refusal.rest_eq {finish : Pos} {more behind rest : List Token} {issue : Diagnostic}
    (refusal : Refusal finish (more ++ bar :: behind) rest issue) (legal : bar.kind ≠ .illegal) :
    rest = (if (more.headD bar).kind = .illegal then more.tail else more) ++ bar :: behind := by
  generalize given : more ++ bar :: behind = left at refusal
  cases refusal with
  | illegal isIllegal =>
      cases more with
      | nil =>
          cases given
          exact absurd isIllegal legal
      | cons token more =>
          cases given
          exact congrArg (· ++ bar :: behind) (if_pos isIllegal).symm
  | unexpected isLegal =>
      rw [← given, peek_bar] at isLegal
      rw [if_neg isLegal, given]

theorem expression_within (closes : bar.kind = .semicolon)
    (places : ((front ++ [bar]).map Token.pos).Nodup) : (Run.of expression).Within front bar := by
  have outside {used : List Token} (inline : Admits .expression used) : bar ∉ used :=
    fun inside => by
    have := inline bar inside
    rw [closes] at this
    cases this
  -- a first run on a source that ends behind the bar, at a place of its own
  obtain ⟨ending, isEnd, apart⟩ := exists_placed [.eof] _ places
  obtain ⟨final, rfl, _⟩ := List.map_eq_singleton_iff.mp isEnd
  have flat := expression_flat final.pos (front ++ [bar])
  have ahead (finish : Pos) := expression_ahead final.pos finish (front ++ [bar])
  cases found : (expression final.pos (front ++ [bar])).result with
  | some value =>
      obtain ⟨silent, used, whole, inline⟩ := flat.done value found
      obtain ⟨left, rfl, rest⟩ := split_before (outside inline) whole
      refine .inl ⟨value, left, List.suffix_append used left, fun finish behind => ?_⟩
      have read := (ahead finish).value _ [] behind value (left ++ [bar]) (List.append_nil _).symm
        silent found (by rw [rest, List.append_nil]) (.inl (by simp))
      rwa [List.append_assoc _ [bar], List.append_assoc _ [bar]] at read
  | none =>
      obtain ⟨used, left, issue, whole, single, refusal, inline⟩ := flat.refused found
      obtain ⟨more, rfl, rfl⟩ := split_before (outside inline) whole
      have place : issue.pos = (more.headD bar).pos := by rw [refusal.pos, peek_bar]
      have early : issue.pos ≠ final.pos := by
        have inside : issue.pos ∈ (used ++ more ++ [bar]).map Token.pos := by
          rw [place]
          exact List.mem_map_of_mem (by cases more <;> simp)
        exact (List.nodup_append.mp apart).2.2 _ inside _ List.mem_cons_self
      refine .inr ⟨issue, if (more.headD bar).kind = .illegal then more.tail else more, ?_,
        fun finish behind => ?_⟩
      · apply List.IsSuffix.trans _ (List.suffix_append used more)
        split
        · exact List.tail_suffix more
        · exact List.suffix_refl more
      · obtain ⟨others, error⟩ := (ahead finish).error _ [] behind issue [] (List.append_nil _).symm
          single early nofun
        replace error : (expression finish (used ++ more ++ bar :: behind)).issues =
            issue :: others := by
          rwa [List.append_assoc _ [bar]] at error
        rw [Run.of]
        have flatToo := expression_flat finish (used ++ more ++ bar :: behind)
        generalize expression finish (used ++ more ++ bar :: behind) = step at error flatToo ⊢
        obtain ⟨result, rest, issues, suffix, spent⟩ := step
        cases result with
        | some value => cases (flatToo.done value rfl).1.symm.trans error
        | none =>
            obtain ⟨other, left, _, whole, same, refusal, inline⟩ := flatToo.refused rfl
            cases same.symm.trans error
            obtain ⟨less, same', rfl⟩ := split_before (outside inline) whole
            obtain rfl : more = less :=
              left_unique same' places (by rw [← place, refusal.pos, peek_bar])
            rw [← refusal.rest_eq (by rw [closes]; decide)]
            exact congrArg (fun issues => (none, rest, issues)) same

variable (closes : bar.kind = .semicolon) (others : ∀ token ∈ front, token.kind ≠ .semicolon)
  (places : ((front ++ [bar]).map Token.pos).Nodup)

include closes others places

theorem simple_through : (Run.of simple).Through front bar := by
  unfold simple
  refine through_andThen (expression_within closes places)
    (fun finish behind expr rest _ _ => congrArg
    (fun first : Token => ((expect finish .semicolon (text "after expression") rest).map
      fun _ => Stmt.eval expr first.pos).outcome) (peek_bar finish front behind))
    fun expr left suffix => ?_
  exact through_map (expect_through _ closes fun token inside =>
    others token (suffix.subset inside)) _

theorem definition_through (keyword : Token) :
    (Run.of fun finish given => definition finish keyword given).Through front bar := by
  unfold definition
  refine through_andThen (expect_within _ (by rw [closes]; decide) (by rw [closes]; decide))
    (fun _ _ _ _ _ _ => rfl) fun name afterName suffixName => ?_
  refine through_andThen (expect_within _ (by rw [closes]; decide) (by rw [closes]; decide))
    (fun _ _ _ _ _ _ => rfl) fun sign afterSign suffixSign => ?_
  have suffix := suffixSign.trans suffixName
  have placesSign : ((afterSign ++ [bar]).map Token.pos).Nodup :=
    places.sublist ((suffix.sublist.append_right [bar]).map _)
  refine through_andThen (expression_within closes placesSign) (fun _ _ _ _ _ _ => rfl)
    fun initial rest suffixInitial => ?_
  exact through_map (expect_through _ closes fun token inside =>
    others token ((suffixInitial.trans suffix).subset inside)) _

end Expressions

/-- Tokens up to their only semicolon, none of a kind that belongs to blocks, and the keyword of a
definition at the start or not at all. -/
structure Chunk (tokens : List Token) : Prop where
  closed : ∃ front bar, tokens = front ++ [bar] ∧ bar.kind = .semicolon ∧
    ∀ token ∈ front, token.kind ≠ .semicolon
  flat : ∀ token ∈ tokens, token.kind ∉ [.eof, .leftBrace, .rightBrace, .ifWord, .whileWord]
  headed : ∀ token ∈ tokens.tail, token.kind ∉ [.varWord, .constWord]

def errors (tokens : List Token) : List Diagnostic :=
  match parseTokens tokens with
  | .ok _ => []
  | .error issues => issues

theorem errors_append (given : List Token) (final : Token) :
    errors (given ++ [final]) = (statements final.pos .eof given).issues := by
  rw [errors, parseTokens_append]
  split
  · next accepted => exact (program_ok_iff.mp accepted).1.symm
  · next rejected => exact (program_issues rejected).symm

def Kind.passed : Kind → Bool
  | .eof | .rightBrace | .ifWord | .whileWord | .varWord | .constWord | .semicolon => false
  | _ => true

theorem Kind.passed_or (kind : Kind) :
    kind.passed = true ∨ kind = .eof ∨ kind = .semicolon ∨ kind.Stops := by
  cases kind <;> simp [Kind.passed, Kind.Stops]

section Recovery

variable {token : Token}

theorem recover_passed (passed : token.kind.passed = true) (rest : List Token) :
    recover (token :: rest) = ((recover rest).1,
      if token.kind = .illegal then ⟨token.text, token.pos⟩ :: (recover rest).2
      else (recover rest).2) := by
  rw [recover]
  split
  case h_8 kind => exact Prod.ext rfl (if_pos kind).symm
  case h_9 legal => exact Prod.ext rfl (if_neg legal).symm
  all_goals
    next kind =>
      rw [kind] at passed
      cases passed

theorem recover_semicolon (kind : token.kind = .semicolon) (rest : List Token) :
    recover (token :: rest) = (rest, []) := by
  rw [recover]
  simp only [kind]

theorem recover_stops (stops : token.kind.Stops) (rest : List Token) :
    recover (token :: rest) = (token :: rest, []) := by
  rw [recover]
  rcases stops with kind | kind | kind | kind | kind <;> simp only [kind]

end Recovery

section Chunks

theorem recover_bar {left : List Token} {bar : Token} (closes : bar.kind = .semicolon)
    (passed : ∀ token ∈ left, token.kind.passed = true) :
    ∃ issues, ∀ behind, recover (left ++ bar :: behind) = (behind, issues) := by
  induction left with
  | nil => exact ⟨[], recover_semicolon closes⟩
  | cons token left ih =>
      obtain ⟨issues, recovers⟩ :=
        ih fun other inside => passed other (List.mem_cons_of_mem token inside)
      refine ⟨if token.kind = .illegal then ⟨token.text, token.pos⟩ :: issues else issues,
        fun behind => ?_⟩
      rw [List.cons_append, recover_passed (passed token List.mem_cons_self), recovers]

theorem statement_definition {finish : Pos} {token : Token} {rest : List Token}
    (keyword : token.kind = .varWord ∨ token.kind = .constWord) :
    (statement finish (token :: rest)).outcome = (definition finish token rest).outcome := by
  rw [statement.eq_def]
  rcases keyword with kind | kind <;> simp only [kind] <;> rfl

theorem statement_plain {finish : Pos} {given : List Token}
    (starts : ¬(peek finish given).kind.Stops) (flat : (peek finish given).kind ≠ .leftBrace) :
    (statement finish given).outcome = (simple finish given).outcome := by
  rw [statement.eq_def]
  cases given with
  | nil => rfl
  | cons token rest =>
      rw [peek, List.headD_cons] at starts flat
      simp only [Kind.Stops, not_or] at starts
      dsimp only
      split <;> simp_all

variable {front : List Token} {bar : Token}

theorem Chunk.passed (chunk : Chunk (front ++ [bar])) {token : Token} (inside : token ∈ front)
    (other : token.kind ≠ .semicolon) (keyword : token.kind ∉ [.varWord, .constWord]) :
    token.kind.passed = true := by
  have flat := chunk.flat token (List.mem_append_left _ inside)
  rcases token.kind.passed_or with passed | kind | kind | stops
  · exact passed
  · exact absurd (by simp [kind]) flat
  · exact absurd kind other
  · rcases stops with kind | kind | kind | kind | kind <;> simp [kind] at flat keyword

/-- A statement ends with its semicolon, or recovery does. -/
theorem Chunk.statement_ends (chunk : Chunk (front ++ [bar])) (closes : bar.kind = .semicolon)
    (others : ∀ token ∈ front, token.kind ≠ .semicolon)
    (places : ((front ++ [bar]).map Token.pos).Nodup) :
    (Run.of statement).Ends front bar ∨
      ∃ issue left, (∀ token ∈ left, token.kind.passed = true) ∧ ∀ finish behind,
        (statement finish (front ++ bar :: behind)).outcome =
          (none, left ++ bar :: behind, [issue]) := by
  by_cases keyword : (front.headD bar).kind ∈ [Kind.varWord, Kind.constWord]
  · cases front with
    | nil =>
        rw [List.headD_nil, closes] at keyword
        simp at keyword
    | cons first front =>
        have defines (finish : Pos) (behind : List Token) :
            (statement finish (first :: front ++ bar :: behind)).outcome =
              (definition finish first (front ++ bar :: behind)).outcome :=
          statement_definition (by simpa using keyword)
        have others' := fun token inside => others token (List.mem_cons_of_mem first inside)
        have places' : ((front ++ [bar]).map Token.pos).Nodup := (List.nodup_cons.mp places).2
        rcases definition_through closes others' places' first with
          ⟨value, ends⟩ | ⟨issue, left, suffix, fails⟩
        · exact .inl
            ⟨value, fun finish behind => (defines finish behind).trans (ends finish behind)⟩
        · refine .inr ⟨issue, left, fun token inside => ?_,
            fun finish behind => (defines finish behind).trans (fails finish behind)⟩
          have inFront := suffix.subset inside
          exact chunk.passed (List.mem_cons_of_mem first inFront) (others' token inFront)
            (chunk.headed token (List.mem_append_left _ inFront))
  · have flat : (front.headD bar).kind ∉ [.eof, .leftBrace, .rightBrace, .ifWord, .whileWord] :=
      chunk.flat _ (by cases front <;> simp)
    have simply (finish : Pos) (behind : List Token) :
        (statement finish (front ++ bar :: behind)).outcome =
          (simple finish (front ++ bar :: behind)).outcome := by
      apply statement_plain <;> rw [peek_bar]
      · simp_all [Kind.Stops]
      · simp_all
    rcases simple_through closes others places with ⟨value, ends⟩ | ⟨issue, left, suffix, fails⟩
    · exact .inl ⟨value, fun finish behind => (simply finish behind).trans (ends finish behind)⟩
    · refine .inr ⟨issue, left, fun token inside => ?_,
        fun finish behind => (simply finish behind).trans (fails finish behind)⟩
      have inFront := suffix.subset inside
      refine chunk.passed inFront (others token inFront) ?_
      cases front with
      | nil => cases inFront
      | cons first front =>
          rcases List.mem_cons.mp inFront with rfl | behindFirst
          · exact keyword
          · exact chunk.headed token (List.mem_append_left _ behindFirst)

theorem statements_found {finish : Pos} {closing : Kind} {token : Token} {rest left : List Token}
    {stmt : Stmt} {issues : List Diagnostic} (goesOn : ¬(token.kind = closing ∨ token.kind = .eof))
    (read : (statement finish (token :: rest)).outcome = (some stmt, left, issues)) :
    (statements finish closing (token :: rest)).outcome =
      ((statements finish closing left).result.map (stmt :: ·),
        (statements finish closing left).rest,
        issues ++ (statements finish closing left).issues) := by
  rw [statements.eq_def]
  dsimp only
  rw [dif_neg goesOn]
  generalize statement finish (token :: rest) = step at read
  obtain ⟨result, left, issues, suffix, spent⟩ := step
  cases read
  rfl

theorem statements_failed {finish : Pos} {closing : Kind} {token : Token} {rest left : List Token}
    {issues : List Diagnostic} (goesOn : ¬(token.kind = closing ∨ token.kind = .eof))
    (read : (statement finish (token :: rest)).outcome = (none, left, issues)) :
    (statements finish closing (token :: rest)).outcome =
      let others := statements finish closing (stepOver token.pos (recover left).1)
      (others.result, others.rest, issues ++ (recover left).2 ++ others.issues) := by
  rw [statements.eq_def]
  dsimp only
  rw [dif_neg goesOn]
  generalize statement finish (token :: rest) = step at read
  obtain ⟨result, left, issues, suffix, spent⟩ := step
  cases read
  rfl

/-- What is read of a chunk and what is said of it do not depend on what is behind it, and neither
does the rest depend on it. -/
theorem Chunk.read {tokens : List Token} (chunk : Chunk tokens)
    (places : (tokens.map Token.pos).Nodup) :
    ∃ stmts issues, ∀ finish behind,
      (∀ token ∈ behind, token.pos ∉ tokens.map Token.pos) →
        (statements finish .eof (tokens ++ behind)).outcome =
          ((statements finish .eof behind).result.map (stmts ++ ·),
            (statements finish .eof behind).rest,
            issues ++ (statements finish .eof behind).issues) := by
  obtain ⟨front, bar, rfl, closes, others⟩ := chunk.closed
  obtain ⟨first, rest, starts⟩ : ∃ first rest, front ++ [bar] = first :: rest :=
    List.exists_cons_of_ne_nil (by simp)
  have given (behind : List Token) : front ++ bar :: behind = first :: (rest ++ behind) := by
    rw [List.append_cons, starts, List.cons_append]
  have goesOn : ¬(first.kind = .eof ∨ first.kind = .eof) := by
    have flat := chunk.flat first (starts ▸ List.mem_cons_self)
    simp only [List.mem_cons, not_or] at flat
    simpa using flat.1
  rcases chunk.statement_ends closes others places with ⟨stmt, ends⟩ | ⟨issue, left, passed, fails⟩
  · refine ⟨[stmt], [], fun finish behind _ => ?_⟩
    have read := ends finish behind
    rw [List.append_assoc, List.singleton_append]
    rw [given] at read ⊢
    exact statements_found goesOn read
  · obtain ⟨illegals, recovers⟩ := recover_bar closes passed
    refine ⟨[], issue :: illegals, fun finish behind apart => ?_⟩
    have read := fails finish behind
    rw [List.append_assoc, List.singleton_append]
    rw [given] at read ⊢
    rw [statements_failed goesOn read, recovers, stepOver_apart fun token inside same =>
      apart token inside (by rw [same, starts]; exact List.mem_cons_self)]
    cases result : (statements finish .eof behind).result <;> simp [result]

theorem errors_accepted {tokens : List Token} {program : Program}
    (accepted : parseTokens tokens = .ok program) : errors tokens = [] := by
  rw [errors, accepted]

theorem Chunk.alone {tokens behind : List Token} (chunk : Chunk tokens)
    (places : ((tokens ++ behind).map Token.pos).Nodup) (finish : Pos) (final : Token) :
    (statements finish .eof (tokens ++ behind)).issues =
        errors (tokens ++ [final]) ++ (statements finish .eof behind).issues ∧
      ∀ program, parseTokens (tokens ++ [final]) = .ok program →
        (statements finish .eof (tokens ++ behind)).result =
          (statements finish .eof behind).result.map (program.body ++ ·) := by
  rw [List.map_append, List.nodup_append] at places
  obtain ⟨places, _, apart⟩ := places
  obtain ⟨stmts, issues, reads⟩ := chunk.read places
  have whole := reads finish behind fun token inside same =>
    apart _ same _ (List.mem_map_of_mem inside) rfl
  have alone := reads final.pos [] (List.forall_mem_nil _)
  rw [List.append_nil, statements] at alone
  simp only [Step.outcome, Prod.mk.injEq] at whole alone
  refine ⟨?_, fun program accepted => ?_⟩
  · rw [whole.2.2, errors_append, alone.2.2]
    simp [Step.done]
  · rw [parseTokens_append] at accepted
    obtain ⟨_, rfl⟩ := program_ok_iff.mp accepted
    rw [whole.1, alone.1]
    simp [Step.done]

end Chunks

/-- One chunk behind the other, each is read and rejected as it is alone. -/
theorem chunks_apart (chunks : List (List Token)) (final : Token) (ends : List Token → Token)
    (shaped : ∀ chunk ∈ chunks, Chunk chunk) (places : (chunks.flatten.map Token.pos).Nodup) :
    errors (chunks.flatten ++ [final]) = chunks.flatMap
      (fun chunk => errors (chunk ++ [ends chunk])) ∧
      ∀ programs, List.Forall₂
        (fun chunk program => parseTokens (chunk ++ [ends chunk]) = .ok program)
        chunks programs → ∃ program, parseTokens (chunks.flatten ++ [final]) = .ok program ∧
          program.body = programs.flatMap Program.body := by
  suffices reads : (statements final.pos .eof chunks.flatten).issues =
        chunks.flatMap (fun chunk => errors (chunk ++ [ends chunk])) ∧
      ∀ programs,
        List.Forall₂ (fun chunk program => parseTokens (chunk ++ [ends chunk]) = .ok program)
        chunks programs → (statements final.pos .eof chunks.flatten).issues = [] ∧
          (statements final.pos .eof chunks.flatten).result =
            some (programs.flatMap Program.body) by
    refine ⟨(errors_append _ final).trans reads.1, fun programs accepted => ?_⟩
    obtain ⟨silent, result⟩ := reads.2 programs accepted
    refine ⟨_, (parseTokens_append _ final).trans (program_ok_iff.mpr ⟨silent, rfl⟩), ?_⟩
    rw [result, Option.getD_some]
  induction chunks with
  | nil =>
      rw [List.flatten_nil, statements]
      refine ⟨rfl, ?_⟩
      rintro _ ⟨⟩
      exact ⟨rfl, rfl⟩
  | cons chunk chunks ih =>
      rw [List.flatten_cons] at places ⊢
      have placesRest := places.sublist ((List.sublist_append_right chunk chunks.flatten).map _)
      obtain ⟨issues, results⟩ :=
        ih (fun other inside => shaped other (List.mem_cons_of_mem chunk inside)) placesRest
      obtain ⟨first, result⟩ :=
        (shaped chunk List.mem_cons_self).alone places final.pos (ends chunk)
      refine ⟨by rw [first, issues, List.flatMap_cons], ?_⟩
      rintro _ (_ | ⟨accepted, others⟩)
      obtain ⟨silent, read⟩ := results _ others
      rw [first, errors_accepted accepted, silent, result _ accepted, read]
      exact ⟨rfl, by rw [Option.map_some, List.flatMap_cons]⟩

/-- The tokens of `x = ) @ ;`, of `var y = 2;` and of `y;`, a statement on each line. -/
def threeLines : List (List Token) :=
  [[⟨.identifier, text "x", ⟨1, 1⟩⟩, ⟨.assign, [], ⟨1, 3⟩⟩, ⟨.rightParen, [], ⟨1, 5⟩⟩,
      ⟨.illegal, text "unexpected character '@'", ⟨1, 7⟩⟩, ⟨.semicolon, [], ⟨1, 9⟩⟩],
    [⟨.varWord, [], ⟨2, 1⟩⟩, ⟨.identifier, text "y", ⟨2, 5⟩⟩, ⟨.assign, [], ⟨2, 7⟩⟩,
      ⟨.int, text "2", ⟨2, 9⟩⟩, ⟨.semicolon, [], ⟨2, 10⟩⟩],
    [⟨.identifier, text "y", ⟨3, 1⟩⟩, ⟨.semicolon, [], ⟨3, 2⟩⟩]]

theorem chunks_apart_lines :
    (∀ chunk ∈ threeLines, Chunk chunk) ∧ (threeLines.flatten.map Token.pos).Nodup ∧
      errors (threeLines.flatten ++ [.finish ⟨4, 1⟩]) =
        [⟨text "expected expression, found ')'", ⟨1, 5⟩⟩,
          ⟨text "unexpected character '@'", ⟨1, 7⟩⟩] ∧
      ∃ program, parseTokens (threeLines.tail.flatten ++ [.finish ⟨4, 1⟩]) = .ok program ∧
        program.body = [.define (text "y") ⟨2, 5⟩ (.int (text "2") ⟨2, 9⟩) false ⟨2, 1⟩,
          .eval (.name (text "y") ⟨3, 1⟩) ⟨3, 1⟩] := by
  have shaped : ∀ chunk ∈ threeLines, Chunk chunk := by
    have chunk {tokens : List Token} {bar : Token} (closed : tokens = tokens.dropLast ++ [bar])
        (closes : bar.kind = .semicolon)
          (others : ∀ token ∈ tokens.dropLast, token.kind ≠ .semicolon)
        (flat : ∀ token ∈ tokens, token.kind ∉ [.eof, .leftBrace, .rightBrace, .ifWord, .whileWord])
        (headed : ∀ token ∈ tokens.tail, token.kind ∉ [.varWord, .constWord]) : Chunk tokens :=
      ⟨⟨_, bar, closed, closes, others⟩, flat, headed⟩
    rw [threeLines, List.forall_mem_cons, List.forall_mem_cons, List.forall_mem_singleton]
    exact ⟨chunk rfl rfl (by decide) (by decide) (by decide),
      chunk rfl rfl (by decide) (by decide) (by decide),
      chunk rfl rfl (by decide) (by decide) (by decide)⟩
  have places : (threeLines.flatten.map Token.pos).Nodup := by decide
  obtain ⟨rejected, _⟩ :=
    chunks_apart threeLines (.finish ⟨4, 1⟩) (fun _ => .finish ⟨4, 1⟩) shaped places
  obtain ⟨_, accepted⟩ := chunks_apart threeLines.tail (.finish ⟨4, 1⟩) (fun _ => .finish ⟨4, 1⟩)
    (fun chunk inside => shaped chunk (List.mem_of_mem_tail inside)) (by decide)
  refine ⟨shaped, places, rejected.trans (by with_unfolding_all rfl), ?_⟩
  refine accepted [⟨[.define (text "y") ⟨2, 5⟩ (.int (text "2") ⟨2, 9⟩) false ⟨2, 1⟩], ⟨2, 1⟩⟩,
    ⟨[.eval (.name (text "y") ⟨3, 1⟩) ⟨3, 1⟩], ⟨3, 1⟩⟩] (.cons ?_ (.cons ?_ .nil))
  · with_unfolding_all rfl
  · with_unfolding_all rfl

end Rover
