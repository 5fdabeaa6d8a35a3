import Rover.Proofs.Grammar.Acceptance
import Rover.Proofs.Grammar.Inline

/-!
Reading ends. Statements are read in a loop, and each pass, whether its statement is read or fails
and is skipped, uses up at least one token; so there are at most as many passes as tokens. A program
is read up to the first end of file, whatever kinds and places its tokens have.
-/

namespace Rover

open Rover.Parser

structure Progress where
  left : List Token
  body : List Stmt
  issues : List Diagnostic

namespace Progress

def pass (finish : Pos) (closing : Kind) (progress : Progress) : Option Progress :=
  match progress.left with
  | [] => none
  | token :: rest =>
      if token.kind = closing ∨ token.kind = .eof then none
      else
        let step := statement finish (token :: rest)
        match step.result with
        | some stmt => some ⟨step.rest, progress.body ++ [stmt], progress.issues ++ step.issues⟩
        | none => some ⟨stepOver token.pos (recover step.rest).1, progress.body,
            progress.issues ++ step.issues ++ (recover step.rest).2⟩

def after (finish : Pos) (closing : Kind) : Nat → Progress → Option Progress
  | 0, progress => some progress
  | passes + 1, progress => (progress.pass finish closing).bind (after finish closing passes)

variable {finish : Pos} {closing : Kind} {progress next : Progress}

/-- What one pass does, guards included. -/
theorem pass_cases (passed : progress.pass finish closing = some next) :
    ∃ token rest, progress.left = token :: rest ∧ ¬(token.kind = closing ∨ token.kind = .eof) ∧
      ((∃ stmt, (statement finish (token :: rest)).result = some stmt ∧
          next = ⟨(statement finish (token :: rest)).rest, progress.body ++ [stmt],
            progress.issues ++ (statement finish (token :: rest)).issues⟩) ∨
        ((statement finish (token :: rest)).result = none ∧
          next = ⟨stepOver token.pos (recover (statement finish (token :: rest)).rest).1,
            progress.body, progress.issues ++ (statement finish (token :: rest)).issues ++
              (recover (statement finish (token :: rest)).rest).2⟩)) := by
  unfold pass at passed
  split at passed
  · cases passed
  · next token rest left =>
      refine ⟨token, rest, left, ?_⟩
      split at passed
      · cases passed
      · next goesOn =>
          refine ⟨goesOn, ?_⟩
          dsimp only at passed
          split at passed
          · next stmt found =>
              cases passed
              exact .inl ⟨stmt, found, rfl⟩
          · next failed =>
              cases passed
              exact .inr ⟨failed, rfl⟩

theorem pass_shorter (passed : progress.pass finish closing = some next) :
    next.left <:+ progress.left ∧ next.left.length < progress.left.length := by
  obtain ⟨token, rest, left, goesOn, step⟩ := pass_cases passed
  have suffix := (statement finish (token :: rest)).suffix
  rw [left]
  rcases step with ⟨stmt, found, rfl⟩ | ⟨_, rfl⟩
  · exact ⟨suffix, (statement finish (token :: rest)).spent (by rw [found]; rfl) rfl⟩
  · exact ⟨((stepOver_suffix _ _).trans (recover_suffix _)).trans suffix,
      length_stepOver_recover_lt (fun ends => goesOn (.inr ends)) suffix⟩

/-- The loop over the given tokens comes to its end. -/
def Returns (finish : Pos) (closing : Kind) (given : List Token) (last : Progress) : Prop :=
  ∃ passes ≤ given.length, after finish closing passes ⟨given, [], []⟩ = some last ∧
    last.pass finish closing = none

end Progress

theorem statements_passes (finish : Pos) (closing : Kind) (given : List Token) (body : List Stmt)
    (issues : List Diagnostic) :
    ∃ passes ≤ given.length, ∃ stmts,
      (statements finish closing given).result = some stmts ∧
      Progress.after finish closing passes ⟨given, body, issues⟩ =
        some ⟨(statements finish closing given).rest, body ++ stmts,
          issues ++ (statements finish closing given).issues⟩ := by
  induction length : given.length using Nat.strongRecOn generalizing given body issues with
  | _ bound ih =>
      subst length
      cases given with
      | nil =>
          rw [statements]
          exact ⟨0, Nat.le_refl _, [], rfl, by simp [Progress.after, Step.done]⟩
      | cons token rest =>
          by_cases stop : token.kind = closing ∨ token.kind = .eof
          · rw [statements.eq_def]
            dsimp only
            rw [dif_pos stop]
            exact ⟨0, Nat.zero_le _, [], rfl, by simp [Progress.after, Step.done]⟩
          · have passed : Progress.pass finish closing ⟨token :: rest, body, issues⟩ = _ :=
              if_neg stop
            rw [statements.eq_def]
            dsimp only at passed ⊢
            rw [dif_neg stop]
            generalize statement finish (token :: rest) = step at passed
            obtain ⟨result, left, found, suffix, spent⟩ := step
            cases result with
            | some stmt =>
                obtain ⟨passes, few, stmts, read, later⟩ :=
                  ih left.length (spent rfl rfl) left (body ++ [stmt]) (issues ++ found) rfl
                have shorter : left.length < rest.length + 1 := spent rfl rfl
                refine ⟨passes + 1, Nat.le_trans (Nat.succ_le_succ few) shorter, stmt :: stmts, ?_,
                  ?_⟩
                · dsimp only
                  rw [read, Option.map_some]
                · rw [Progress.after, passed]
                  dsimp only [Option.bind_some]
                  rw [later]
                  simp
            | none =>
                have shorter := length_stepOver_recover_lt (fun ends => stop (.inr ends)) suffix
                obtain ⟨passes, few, stmts, read, later⟩ :=
                  ih _ shorter (stepOver token.pos (recover left).1) body
                    (issues ++ found ++ (recover left).2) rfl
                refine ⟨passes + 1, Nat.le_trans (Nat.succ_le_succ few) shorter, stmts, read, ?_⟩
                rw [Progress.after, passed]
                dsimp only [Option.bind_some]
                rw [later]
                simp

theorem pass_ended {finish : Pos} {closing : Kind} {last : Progress}
    (ended : Ended closing last.left) : last.pass finish closing = none := by
  obtain ⟨left, body, issues⟩ := last
  cases left with
  | nil => rfl
  | cons token rest => exact if_pos ended

/-- Every loop over statements returns, with what the recursion yields. -/
theorem statements_returns (finish : Pos) (closing : Kind) (given : List Token) :
    ∃ last, Progress.Returns finish closing given last ∧
      (statements finish closing given).outcome = (some last.body, last.left, last.issues) := by
  obtain ⟨passes, few, stmts, read, after⟩ := statements_passes finish closing given [] []
  refine ⟨_, ⟨passes, few, after, pass_ended (statements_ended finish closing given)⟩, ?_⟩
  rw [Step.outcome, read]
  rfl

/-- What is left behind some tokens, none of them an end of file. -/
def Spares (given left : List Token) : Prop :=
  ∃ used, given = used ++ left ∧ ∀ token ∈ used, token.kind ≠ .eof

section Spares

variable {α β : Type} {strict laxer : Bool} {finish : Pos} {given middle left : List Token}

theorem spares_self : Spares given given := ⟨[], rfl, List.forall_mem_nil _⟩

theorem spares_cons {token : Token} (goesOn : token.kind ≠ .eof) : Spares (token :: left) left :=
  ⟨[token], rfl, List.forall_mem_singleton.mpr goesOn⟩

theorem Spares.trans (first : Spares given middle) (second : Spares middle left) :
    Spares given left := by
  obtain ⟨used, rfl, goesOn⟩ := first
  obtain ⟨more, rfl, goesOnMore⟩ := second
  exact ⟨used ++ more, (List.append_assoc _ _ _).symm,
    List.forall_mem_append.mpr ⟨goesOn, goesOnMore⟩⟩

theorem Refusal.spares {issue : Diagnostic} (refusal : Refusal finish middle left issue) :
    Spares middle left := by
  cases refusal with
  | illegal kind => exact spares_cons (by rw [kind]; decide)
  | unexpected => exact spares_self

theorem Flat.spares {fits : Kind → Bool} {step : Step α strict given}
    (flat : Flat finish fits step) (goesOn : fits .eof = false) : Spares given step.rest := by
  cases result : step.result with
  | some value =>
      obtain ⟨_, used, whole, fit⟩ := flat.done value result
      refine ⟨used, whole, fun token member ends => ?_⟩
      have fitting := fit token member
      rw [ends, goesOn] at fitting
      cases fitting
  | none =>
      obtain ⟨used, left, _, rfl, _, refusal, inline⟩ := flat.refused result
      have first : Spares (used ++ left) left :=
        ⟨used, rfl, fun token member => Kind.ne_eof_of_inline (inline token member)⟩
      exact first.trans refusal.spares

theorem Spares.andThen {first : Step α strict given}
    {next : α → (rest : List Token) → rest <:+ given →
      (strict = true → rest.length < given.length) → Step β laxer rest}
    (begins : Spares given first.rest)
    (continues : ∀ value rest suffix spent, Spares rest (next value rest suffix spent).rest) :
    Spares given (first.andThen next).rest := by
  obtain ⟨result, rest, issues, suffix, spent⟩ := first
  cases result with
  | none => exact begins
  | some value => exact begins.trans (continues value rest suffix (spent rfl))

theorem recover_spares (given : List Token) : Spares given (recover given).1 := by
  induction given with
  | nil => exact spares_self
  | cons token rest ih =>
      rw [recover]
      split
      case h_7 kind => exact spares_cons (by rw [kind]; decide)
      case h_8 kind => exact (spares_cons (by rw [kind]; decide)).trans ih
      case h_9 goesOn _ _ _ _ _ _ _ => exact (spares_cons goesOn).trans ih
      all_goals exact spares_self

theorem stepOver_spares (start : Pos) (given : List Token) :
    Spares given (stepOver start given) := by
  cases given with
  | nil => exact spares_self
  | cons token rest =>
      rw [stepOver]
      split
      · next passes => exact spares_cons passes.1
      · exact spares_self

variable (finish)

mutual

theorem statements_spares (closing : Kind) (given : List Token) :
    Spares given (statements finish closing given).rest := by
  rw [statements.eq_def]
  cases given with
  | nil => exact spares_self
  | cons token rest =>
      dsimp only
      split
      · exact spares_self
      · next goesOn =>
          have first := statement_spares (token :: rest)
          split
          · next stmt left issues suffix spent found =>
              rw [found] at first
              have shorter : left.length < rest.length + 1 := spent rfl rfl
              exact first.trans (statements_spares closing left)
          · next left issues suffix spent found =>
              rw [found] at first
              have shorter : _ < rest.length + 1 :=
                length_stepOver_recover_lt (fun ends => goesOn (.inr ends)) suffix
              exact ((first.trans (recover_spares left)).trans (stepOver_spares token.pos _)).trans
                (statements_spares closing _)
termination_by 16 * given.length + 3
decreasing_by all_goals (rw [List.length_cons]; omega)

theorem statement_spares (given : List Token) : Spares given (statement finish given).rest := by
  rw [statement.eq_def]
  cases given with
  | nil => exact (simple_flat finish []).spares rfl
  | cons token rest =>
      dsimp only
      split
      · next kind =>
          exact (spares_cons (by rw [kind]; decide)).trans (conditional_spares token.pos rest)
      · next kind =>
          refine (spares_cons (by rw [kind]; decide)).trans
            (((expression_flat finish rest).spares rfl).andThen fun condition more _ spent => ?_)
          have shorter := spent rfl
          exact block_spares more
      · exact block_spares (token :: rest)
      · next kind =>
          exact (spares_cons (by rw [kind]; decide)).trans
            ((definition_flat finish rest token).spares rfl)
      · next kind =>
          exact (spares_cons (by rw [kind]; decide)).trans
            ((definition_flat finish rest token).spares rfl)
      · exact (simple_flat finish (token :: rest)).spares rfl
termination_by 16 * given.length + 2
decreasing_by all_goals (rw [List.length_cons]; omega)

theorem conditional_spares (start : Pos) (given : List Token) :
    Spares given (conditional finish start given).rest := by
  rw [conditional]
  refine ((expression_flat finish given).spares rfl).andThen fun condition rest _ spent => ?_
  have shorter := spent rfl
  refine (block_spares rest).andThen fun body more _ spentToo => ?_
  cases more with
  | nil => exact spares_self
  | cons token left =>
      have shorterToo : left.length + 1 < rest.length := spentToo rfl
      dsimp only
      split
      · next kind => exact (spares_cons (by rw [kind]; decide)).trans (alternative_spares left)
      · exact spares_self
termination_by 16 * given.length + 2
decreasing_by all_goals omega

theorem alternative_spares (given : List Token) : Spares given (alternative finish given).rest := by
  rw [alternative.eq_def]
  cases given with
  | nil => exact block_spares []
  | cons token rest =>
      dsimp only
      split
      · next kind =>
          exact (spares_cons (by rw [kind]; decide)).trans (conditional_spares token.pos rest)
      · exact block_spares (token :: rest)
termination_by 16 * given.length + 1
decreasing_by all_goals ((try rw [List.length_cons]); omega)

theorem block_spares (given : List Token) : Spares given (block finish given).rest := by
  have brace {kind : Kind} {context : Text} {given : List Token} (goesOn : kind ≠ .eof) :
      Spares given (expect finish kind context given).rest :=
    (flat_expect context (beq_self_eq_true kind)).spares (beq_false_of_ne goesOn)
  rw [block]
  refine (brace (by decide)).andThen fun opening rest _ spent => ?_
  have shorter := spent rfl
  exact (statements_spares .rightBrace rest).andThen fun _ _ _ _ => brace (by decide)
termination_by 16 * given.length
decreasing_by all_goals omega

end

end Spares

/-- A program is read up to the first end of file. -/
theorem statements_rest (finish : Pos) (given : List Token) :
    (statements finish .eof given).rest = given.dropWhile fun token => token.kind ≠ .eof := by
  obtain ⟨used, whole, goesOn⟩ := statements_spares finish .eof given
  have ended := statements_ended finish .eof given
  generalize (statements finish .eof given).rest = rest at whole ended
  subst whole
  rw [List.dropWhile_append_of_pos fun token member => decide_eq_true (goesOn token member)]
  cases rest with
  | nil => rfl
  | cons token more =>
      have ends : token.kind = .eof := ended.elim id id
      rw [List.dropWhile_cons_of_neg (by simp [ends])]

/-- Every pass of the loop uses up a token and every loop returns. For a program, the first end of
file is the next token then, and the program or the errors are what the loop has gathered. -/
theorem reading_ends (given : List Token) (final : Token) (ends : final.kind = .eof) :
    (∀ closing (progress next : Progress), progress.pass final.pos closing = some next →
      next.left <:+ progress.left ∧ next.left.length < progress.left.length) ∧
    (∀ closing left, ∃ last, Progress.Returns final.pos closing left last ∧
      (statements final.pos closing left).outcome = (some last.body, last.left, last.issues)) ∧
    ∃ last, Progress.Returns final.pos .eof given last ∧
      last.left ++ [final] = (given ++ [final]).dropWhile (fun token => token.kind ≠ .eof) ∧
      parseTokens (given ++ [final]) =
        if last.issues = [] then .ok ⟨last.body, ((given ++ [final]).headD final).pos⟩
        else .error last.issues := by
  refine ⟨fun _ _ _ => Progress.pass_shorter, statements_returns final.pos, ?_⟩
  obtain ⟨last, returns, outcome⟩ := statements_returns final.pos .eof given
  simp only [Step.outcome, Prod.mk.injEq] at outcome
  obtain ⟨result, rest, issues⟩ := outcome
  refine ⟨last, returns, ?_, ?_⟩
  · rw [← rest, statements_rest, List.dropWhile_append]
    split
    · next nothing =>
        rw [List.isEmpty_iff.mp nothing, List.dropWhile_cons_of_neg (by simp [ends])]
        rfl
    · rfl
  · have start : (peek final.pos given).pos = ((given ++ [final]).headD final).pos := by
      cases given <;> rfl
    rw [parseTokens_append, Parser.program, result, issues, start]
    split
    · next silent => rw [if_pos silent, Option.getD_some]
    · next failed => rw [if_neg failed]

def crowded : List Token :=
  [⟨.rightBrace, [], .start⟩, ⟨.unknown 99, [], .start⟩, ⟨.eof, [], .start⟩,
    ⟨.semicolon, [], .start⟩]

theorem reading_ends_crowded :
    (Token.finish .start).kind = .eof ∧
      ∃ last, Progress.Returns Pos.start .eof crowded last ∧
        last.left ++ [.finish .start] = crowded.drop 2 ++ [.finish .start] ∧
        last.issues = (crowded.take 2).map (.unexpected (text "expression")) := by
  obtain ⟨_, _, last, returns, left, parsed⟩ := reading_ends crowded (.finish .start) rfl
  have rejected : parseTokens (crowded ++ [.finish .start]) =
      .error ((crowded.take 2).map (.unexpected (text "expression"))) := by
    with_unfolding_all rfl
  rw [rejected] at parsed
  refine ⟨rfl, last, returns, left, ?_⟩
  split at parsed
  · cases parsed
  · exact (Except.error.inj parsed).symm

end Rover
