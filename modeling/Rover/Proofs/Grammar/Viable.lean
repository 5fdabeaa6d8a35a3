import Mathlib.Data.Fintype.EquivFin
import Rover.Proofs.Grammar.Lookahead

/-!
The first error stands where it can be known. What stands before the refused token is the beginning
of an accepted program, and with that token it is the beginning of none.
-/

namespace Rover

open Rover.Parser

section Lookahead

variable (finish finish' : Pos)

theorem definition_ahead (keyword : Token) (given : List Token) :
    Lookahead finish (definition finish keyword given) fun tokens =>
      (definition finish' keyword tokens).outcome := by
  unfold definition
  refine (lookahead_expect finish finish' .identifier _).andThen (fun _ _ _ _ _ => rfl)
    fun name afterName _ _ => ?_
  refine (lookahead_expect finish finish' .assign _).andThen (fun _ _ _ _ _ => rfl)
    fun _ afterSign _ _ => ?_
  refine (expression_ahead finish finish' afterSign).andThen (fun _ _ _ _ _ => rfl)
    fun initial rest _ _ => ?_
  exact (lookahead_expect finish finish' .semicolon _).map

theorem simple_ahead (given : List Token) :
    Lookahead finish (simple finish given) fun tokens => (simple finish' tokens).outcome := by
  unfold simple
  have ahead (start : Pos) : Lookahead finish
      ((expression finish given).andThen fun expr rest _ _ =>
        (expect finish .semicolon (text "after expression") rest).map fun _ => Stmt.eval expr start)
      fun tokens => ((expression finish' tokens).andThen fun expr rest _ _ =>
        (expect finish' .semicolon (text "after expression") rest).map fun _ =>
          Stmt.eval expr start).outcome :=
    (expression_ahead finish finish' given).andThen (fun _ _ _ _ _ => rfl)
      fun expr rest _ _ => (lookahead_expect finish finish' .semicolon _).map
  -- the statement stands where its first token does, which no other token has a part in
  cases given with
  | nil => exact (ahead finish).ended
  | cons token rest => exact (ahead token.pos).headed fun _ => rfl

def furtherBranch (condition : Expr) (body : List Stmt × Pos) (start : Pos) :
    (given : List Token) → Step Stmt false given
  | [] => .done (.cond condition body.1 body.2 .absent start) []
  | token :: rest =>
      if token.kind = .elseWord then
        .after token ((alternative finish rest).map fun otherwise =>
          .cond condition body.1 body.2 otherwise start)
      else .done (.cond condition body.1 body.2 .absent start) (token :: rest)

theorem conditional_further (start : Pos) (given : List Token) :
    conditional finish start given = (expression finish given).andThen fun condition rest _ _ =>
      (block finish rest).andThen fun body more _ _ =>
        furtherBranch finish condition body start more := by
  rw [conditional]
  congr 1
  funext condition rest _ _
  congr 1
  funext body more _ _
  cases more <;> rfl

theorem statements_alike (closing : Kind) {token : Token} {rest : List Token}
    (goesOn : ¬(token.kind = closing ∨ token.kind = .eof)) :
    Alike ((statement finish (token :: rest)).andThen fun stmt left _ _ =>
        (statements finish closing left).map (stmt :: ·)).outcome
      (statements finish closing (token :: rest)).outcome := by
  have begins := statement_sound finish (token :: rest)
  rw [statements.eq_def]
  dsimp only
  rw [dif_neg goesOn]
  generalize statement finish (token :: rest) = step at *
  obtain ⟨result, left, issues, suffix, spent⟩ := step
  cases result with
  | some stmt => exact alike_of_eq rfl
  | none =>
      refine ⟨fun silent => ?_, fun issue others found => ?_⟩
      · obtain ⟨_, _, failed, _⟩ := begins silent
        cases failed
      · refine ⟨others ++ (recover left).2 ++ (statements finish closing
          (stepOver token.pos (recover left).1)).issues, ?_⟩
        dsimp only [Step.outcome]
        rw [show issues = issue :: others from found]
        rfl

mutual

theorem statements_ahead (closing : Kind) (given : List Token) :
    Lookahead finish (statements finish closing given) fun tokens =>
      (statements finish' closing tokens).outcome := by
  cases given with
  | nil =>
      rw [statements]
      refine lookahead_done ?_ nofun
      rw [statements]
      rfl
  | cons token rest =>
      by_cases stop : token.kind = closing ∨ token.kind = .eof
      · have stopped (finish : Pos) (more : List Token) :
            statements finish closing (token :: more) = .done [] (token :: more) := by
          rw [statements.eq_def]
          exact dif_pos stop
        rw [stopped]
        refine lookahead_done ?_ ?_
        · rw [statements]
          rfl
        · rintro _ _ ⟨⟩ more
          rw [stopped]
          rfl
      · have ahead : Lookahead finish
            ((statement finish (token :: rest)).andThen fun stmt left _ _ =>
              (statements finish closing left).map (stmt :: ·))
            fun tokens => ((statement finish' tokens).andThen fun stmt left _ _ =>
              (statements finish' closing left).map (stmt :: ·)).outcome := by
          refine (statement_ahead (token :: rest)).andThen (fun _ _ _ _ _ => rfl)
            fun stmt left _ spent => ?_
          have shorter := spent rfl
          exact (statements_ahead closing left).map
        exact ahead.alike (statements_alike finish closing stop)
          fun _ => statements_alike finish' closing stop
termination_by 16 * given.length + 3
decreasing_by all_goals (simp only [List.length_cons] at *; omega)

theorem statement_ahead (given : List Token) :
    Lookahead finish (statement finish given) fun tokens =>
      (statement finish' tokens).outcome := by
  cases given with
  | nil =>
      rw [statement]
      exact (simple_ahead finish finish' []).ended
  | cons token rest =>
      have same (more : List Token) :=
        congrArg Step.outcome (statement.eq_def finish' (token :: more))
      revert same
      rw [statement.eq_def]
      dsimp only
      split
      · exact fun same => (conditional_ahead token.pos rest).after same
      · refine fun same => .after ((expression_ahead finish finish' rest).andThen
          (fun _ _ _ _ _ => rfl) fun condition more _ spent => ?_) same
        have shorter := spent rfl
        exact (block_ahead more).map
      · exact fun same => (block_ahead (token :: rest)).map.headed same
      · exact fun same => (definition_ahead finish finish' token rest).after same
      · exact fun same => (definition_ahead finish finish' token rest).after same
      · exact fun same => (simple_ahead finish finish' (token :: rest)).headed same
termination_by 16 * given.length + 2
decreasing_by all_goals (rw [List.length_cons]; omega)

theorem conditional_ahead (start : Pos) (given : List Token) :
    Lookahead finish (conditional finish start given) fun tokens =>
      (conditional finish' start tokens).outcome := by
  rw [conditional_further]
  refine .congr ((expression_ahead finish finish' given).andThen (fun _ _ _ _ _ => rfl)
    fun condition rest _ spent => ?_)
      fun tokens => congrArg _ (conditional_further finish' start tokens)
  have shorter := spent rfl
  refine (block_ahead rest).andThen (fun _ _ _ _ _ => rfl) fun body more _ spentToo => ?_
  cases more with
  | nil => exact lookahead_done rfl nofun
  | cons token left =>
      have shorterToo : left.length + 1 < rest.length := spentToo rfl
      rw [furtherBranch]
      split
      · next isElse =>
          exact (alternative_ahead left).map.after fun _ => congrArg _ (if_pos isElse)
      · next other =>
          refine lookahead_done rfl ?_
          rintro _ _ ⟨⟩ _
          exact congrArg _ (if_neg other)
termination_by 16 * given.length + 2
decreasing_by all_goals omega

theorem alternative_ahead (given : List Token) :
    Lookahead finish (alternative finish given) fun tokens =>
      (alternative finish' tokens).outcome := by
  rw [alternative.eq_def]
  refine .congr ?_ fun tokens => congrArg _ (alternative.eq_def finish' tokens)
  cases given with
  | nil => exact (block_ahead []).map.ended
  | cons token rest =>
      dsimp only
      split
      · next isIf =>
          exact (conditional_ahead token.pos rest).after fun _ => congrArg _ (if_pos isIf)
      · next other =>
          exact (block_ahead (token :: rest)).map.headed fun _ => congrArg _ (if_neg other)
termination_by 16 * given.length + 1
decreasing_by all_goals ((try rw [List.length_cons]); omega)

theorem block_ahead (given : List Token) :
    Lookahead finish (block finish given) fun tokens => (block finish' tokens).outcome := by
  rw [block]
  refine .congr ((lookahead_expect finish finish' .leftBrace _).andThen (fun _ _ _ _ _ => rfl)
    fun opening rest _ spent => ?_) fun tokens => congrArg _ (block.eq_def finish' tokens)
  have shorter := spent rfl
  refine (statements_ahead .rightBrace rest).andThen (fun _ _ _ _ _ => rfl) fun body more _ _ => ?_
  exact (lookahead_expect finish finish' .rightBrace _).map
termination_by 16 * given.length
decreasing_by all_goals omega

end

end Lookahead

/-- What stands before the first error is a beginning. -/
def Viable {α : Type} {strict : Bool} {given : List Token} (finish : Pos)
    (derives : List Token → α → Prop) (step : Step α strict given) : Prop :=
  ∀ issue others, step.issues = issue :: others → ∃ used left, given = used ++ left ∧
    issue.pos = (peek finish left).pos ∧ Begins derives used

section Steps

variable {α β : Type} {strict laxer : Bool} {given : List Token} {finish : Pos}
  {derives : List Token → α → Prop} {onward : List Token → β → Prop}

theorem Halts.viable {step : Step α strict given} (halts : Halts finish derives step) :
    Viable finish derives step := by
  intro issue others found
  cases result : step.result with
  | some value => cases (halts.silent value result).symm.trans found
  | none =>
      obtain ⟨used, left, only, whole, single, refusal, begins⟩ := halts.refused result
      cases single.symm.trans found
      exact ⟨used, left, whole, refusal.pos, begins⟩

theorem viable_done (value : α) : Viable finish derives (.done value given) :=
  nofun

theorem Viable.after {rest : List Token} {step : Step α laxer rest} {token : Token}
    (viable : Viable finish (fun used => derives (token :: used)) step) :
    Viable finish derives (step.after token : Step α strict (token :: rest)) := by
  intro issue others found
  obtain ⟨used, left, rfl, place, begins⟩ := viable issue others found
  exact ⟨token :: used, left, rfl, place, begins.onto [token]⟩

theorem Viable.mono {step : Step α strict given} {wider : List Token → α → Prop}
    (viable : Viable finish derives step)
    (implies : ∀ used value, derives used value → wider used value) : Viable finish wider step := by
  intro issue others found
  obtain ⟨used, left, whole, place, begins⟩ := viable issue others found
  exact ⟨used, left, whole, place,
    begins.mono fun tokens tree derived => ⟨tree, implies tokens tree derived⟩⟩

theorem Viable.map {step : Step α strict given} {convert : α → β}
    (viable : Viable finish derives step)
    (implies : ∀ used value, derives used value → ∃ result, onward used result) :
    Viable finish onward (step.map convert) := by
  intro issue others found
  obtain ⟨used, left, whole, place, begins⟩ := viable issue others found
  exact ⟨used, left, whole, place, begins.mono implies⟩

theorem Viable.andThen {first : Step α strict given}
    {next : α → (rest : List Token) → rest <:+ given →
      (strict = true → rest.length < given.length) → Step β laxer rest}
    (viable : Viable finish derives first) (sound : Sound first derives)
    (completes : ∀ used, Begins derives used → Begins onward used)
    (continues : ∀ value used rest suffix spent, derives used value →
      Viable finish (fun more => onward (used ++ more)) (next value rest suffix spent)) :
    Viable finish onward (first.andThen next) := by
  intro issue others found
  cases early : first.issues with
  | cons head tail =>
      obtain ⟨more, issues⟩ := issues_andThen first next
      rw [early, List.cons_append] at issues
      cases issues.symm.trans found
      obtain ⟨used, left, whole, place, begins⟩ := viable issue tail early
      exact ⟨used, left, whole, place, completes used begins⟩
  | nil =>
      obtain ⟨value, used, result, whole, derived⟩ := sound early
      obtain ⟨spent, _, _, issues⟩ := Step.andThen_of_some next result
      rw [early, List.nil_append] at issues
      obtain ⟨more, left, same, place, begins⟩ :=
        continues value used _ _ spent derived issue others (issues.symm.trans found)
      refine ⟨used ++ more, left, ?_, place, begins.onto used⟩
      rw [List.append_assoc, ← same]
      exact whole

theorem Viable.alike {step : Step α strict given} {whole : Step α laxer given}
    (viable : Viable finish derives step) (alike : Alike step.outcome whole.outcome) :
    Viable finish derives whole := by
  intro issue others found
  cases early : step.issues with
  | nil =>
      have same : whole.issues = step.issues := congrArg (·.2.2) (alike.1 early)
      cases (same.trans early).symm.trans found
  | cons head tail =>
      obtain ⟨_, issues⟩ := alike.2 head tail early
      cases issues.symm.trans found
      exact viable _ tail early

end Steps

section Statements

variable (finish : Pos)

theorem begins_statements {used : List Token} (begins : Begins (Derives .statement) used) :
    Begins (Derives .statements) used :=
  begins.mono fun tokens stmt derived => ⟨[stmt], by simpa using Derives.more derived .none⟩

theorem Begins.braced {α β : Type} {derives : List Token → α → Prop}
    {onward : List Token → β → Prop}
    {used : List Token} (begins : Begins derives used)
    (whole : ∀ tokens tree inner, derives tokens tree → Derives .block inner [] →
      ∃ result, onward (tokens ++ inner) result) : Begins onward used := by
  refine begins.complete [.leftBrace, .rightBrace] (by decide)
    fun tokens tree more derived same => ?_
  obtain ⟨opening, others, rfl, opens, sameOthers⟩ := List.map_eq_cons_iff.mp same
  obtain ⟨closing, rfl, closes⟩ := List.map_eq_singleton_iff.mp sameOthers
  exact whole tokens tree _ derived (.braced opens .none closes)

mutual

theorem statements_viable (closing : Kind) (given : List Token) :
    Viable finish (Derives .statements) (statements finish closing given) := by
  cases given with
  | nil =>
      rw [statements]
      exact viable_done _
  | cons token rest =>
      by_cases stop : token.kind = closing ∨ token.kind = .eof
      · rw [statements.eq_def]
        dsimp only
        rw [dif_pos stop]
        exact viable_done _
      · have viable : Viable finish (Derives .statements)
            ((statement finish (token :: rest)).andThen fun stmt left _ _ =>
              (statements finish closing left).map (stmt :: ·)) := by
          refine (statement_viable (token :: rest)).andThen
            (statement_sound finish (token :: rest)).derived (fun _ => begins_statements)
            fun stmt used left _ spent derived => ?_
          have shorter := spent rfl
          exact (statements_viable closing left).map fun _ others more =>
            ⟨stmt :: others, .more derived more⟩
        exact viable.alike (statements_alike finish closing stop)
termination_by 16 * given.length + 3
decreasing_by all_goals (simp only [List.length_cons] at *; omega)

theorem statement_viable (given : List Token) :
    Viable finish (Derives .statement) (statement finish given) := by
  rw [statement.eq_def]
  cases given with
  | nil => exact (simple_halts finish []).viable
  | cons token rest =>
      dsimp only
      split
      · next kind =>
          exact .after ((conditional_viable token.pos rest).mono fun _ _ derived =>
            .branch (derived token kind rfl))
      · next kind =>
          refine .after ((expression_halts finish rest).viable.andThen
            (expression_sound finish rest).derived (fun used begins => ?_)
            fun condition used more _ spent derived => ?_)
          · exact begins.braced fun tokens condition inner derived block =>
              ⟨.loop condition [] .start .start, .loop kind derived block⟩
          · have shorter := spent rfl
            exact (block_viable more).map fun _ body inner =>
              ⟨.loop condition body.1 body.2 token.pos, .loop kind derived inner⟩
      · exact (block_viable (token :: rest)).map fun _ body inner =>
          ⟨.block body.1 body.2, .nested inner⟩
      · next kind => exact .after (definition_halts finish rest (.inl kind)).viable
      · next kind => exact .after (definition_halts finish rest (.inr kind)).viable
      · exact (simple_halts finish (token :: rest)).viable
termination_by 16 * given.length + 2
decreasing_by all_goals (rw [List.length_cons]; omega)

theorem conditional_viable (start : Pos) (given : List Token) :
    Viable finish (fun used stmt => ∀ word : Token, word.kind = .ifWord → word.pos = start →
      Derives .conditional (word :: used) stmt) (conditional finish start given) := by
  rw [conditional]
  refine (expression_halts finish given).viable.andThen (expression_sound finish given).derived
    (fun _ begins => begins.braced fun _ condition inner derived block =>
      ⟨.cond condition [] .start .absent start, fun word kind _ => .single kind derived block⟩)
    fun condition test rest _ spent derived => ?_
  have shorter := spent rfl
  refine (block_viable rest).andThen (block_sound finish rest).derived
    (fun _ begins => begins.mono fun inner body block =>
      ⟨.cond condition body.1 body.2 .absent start, fun word kind _ => .single kind derived block⟩)
    fun body inner more _ spentToo block => ?_
  cases more with
  | nil => exact viable_done _
  | cons token left =>
      have shorterToo : left.length + 1 < rest.length := spentToo rfl
      dsimp only
      split
      · next isElse =>
          refine .after ((alternative_viable left).map fun last otherwise other =>
            ⟨.cond condition body.1 body.2 otherwise start, fun word kind _ => ?_⟩)
          have whole : Derives .conditional (word :: test ++ inner ++ token :: last)
              (.cond condition body.1 body.2 otherwise start) := by
            rcases other with chained | ⟨stmts, pos, rfl, double⟩
            · exact .chained kind derived block isElse chained
            · exact .double kind derived block isElse double
          simpa using whole
      · exact viable_done _
termination_by 16 * given.length + 2
decreasing_by all_goals omega

theorem alternative_viable (given : List Token) :
    Viable finish (fun used stmt => Derives .conditional used stmt ∨
        ∃ body pos, stmt = .block body pos ∧ Derives .block used body)
      (alternative finish given) := by
  rw [alternative.eq_def]
  cases given with
  | nil =>
      exact (block_viable []).map fun _ body inner => ⟨_, .inr ⟨body.1, body.2, rfl, inner⟩⟩
  | cons token rest =>
      dsimp only
      split
      · next kind =>
          exact .after ((conditional_viable token.pos rest).mono fun _ _ derived =>
            .inl (derived token kind rfl))
      · exact (block_viable (token :: rest)).map fun _ body inner =>
          ⟨_, .inr ⟨body.1, body.2, rfl, inner⟩⟩
termination_by 16 * given.length + 1
decreasing_by all_goals ((try rw [List.length_cons]); omega)

theorem block_viable (given : List Token) :
    Viable finish (fun used body => Derives .block used body.1) (block finish given) := by
  have enclosed {opening closing : Token} {inner : List Token} {body : List Stmt}
      (opens : opening.kind = .leftBrace) (derived : Derives .statements inner body)
      (closes : closing.kind = .rightBrace) :
      ∃ result : List Stmt × Pos, Derives .block ([opening] ++ (inner ++ [closing])) result.1 :=
    ⟨(body, opening.pos), .braced opens derived closes⟩
  rw [block]
  refine (halts_expect _ (by decide)).viable.andThen (sound_expect finish .leftBrace _)
    (fun _ begins => begins.close .rightBrace (by decide) fun _ opening closing opens closes => ?_)
    fun opening used rest _ spent opens => ?_
  · obtain ⟨rfl, opens⟩ := opens
    exact enclosed opens .none closes
  · obtain ⟨rfl, opens⟩ := opens
    have shorter := spent rfl
    refine (statements_viable .rightBrace rest).andThen
      (statements_sound finish .rightBrace rest).derived
      (fun _ begins => begins.close .rightBrace (by decide) fun inner body closing derived closes =>
        enclosed opens derived closes)
      fun body inner more _ _ derived => ?_
    refine (halts_expect _ (by decide)).viable.map fun tokens closing closes => ?_
    obtain ⟨rfl, closes⟩ := closes
    exact enclosed opens derived closes
termination_by 16 * given.length
decreasing_by all_goals omega

end

end Statements

def Finished (tokens : List Token) : Prop :=
  ∃ given final, tokens = given ++ [final] ∧ final.kind = .eof ∧ ∀ token ∈ given, token.kind ≠ .eof

/-- Tokens with which an accepted token list starts; that list has no two tokens at one place. -/
def Acceptable (start : List Token) : Prop :=
  ∃ whole program, Finished whole ∧ (whole.map Token.pos).Nodup ∧ start <+: whole ∧
    parseTokens whole = .ok program

theorem Acceptable.shorter {start less : List Token} (acceptable : Acceptable start)
    (shorter : less <+: start) : Acceptable less := by
  obtain ⟨whole, program, finished, places, goesOn, accepted⟩ := acceptable
  exact ⟨whole, program, finished, places, shorter.trans goesOn, accepted⟩

theorem exists_placed (kinds : List Kind) (places : List Pos) (unique : places.Nodup) :
    ∃ more : List Token, more.map Token.kind = kinds ∧ (places ++ more.map Token.pos).Nodup := by
  have : Infinite Pos := Infinite.of_injective (fun line => (⟨line, 1⟩ : Pos)) fun _ _ same => by
    cases same
    rfl
  induction kinds generalizing places with
  | nil => exact ⟨[], rfl, by simpa using unique⟩
  | cons kind kinds ih =>
      obtain ⟨place, free⟩ := Infinite.exists_notMem_finset places.toFinset
      rw [List.mem_toFinset] at free
      have uniqueHere : (places ++ [place]).Nodup := List.nodup_append.mpr
        ⟨unique, List.nodup_singleton place, fun other inside last isLast same =>
          free (List.mem_singleton.mp isLast ▸ same ▸ inside)⟩
      obtain ⟨more, same, uniqueMore⟩ := ih (places ++ [place]) uniqueHere
      exact ⟨⟨kind, [], place⟩ :: more, by simp [same], by simpa using uniqueMore⟩

theorem Begins.acceptable {used : List Token} (begins : Begins (Derives .statements) used)
    (goesOn : ∀ token ∈ used, token.kind ≠ .eof) (places : (used.map Token.pos).Nodup) :
    Acceptable used := by
  obtain ⟨kinds, goesOnMore, completes⟩ := begins
  obtain ⟨all, same, unique⟩ := exists_placed (kinds ++ [.eof]) _ places
  obtain ⟨more, last, rfl, sameMore, sameLast⟩ := List.map_eq_append_iff.mp same
  obtain ⟨final, rfl, ends⟩ := List.map_eq_singleton_iff.mp sameLast
  obtain ⟨body, derived⟩ := completes more sameMore
  obtain ⟨program, accepted⟩ := program_accepts final.pos derived
  refine ⟨used ++ more ++ [final], program, ⟨used ++ more, final, rfl, ends, ?_⟩, ?_, ?_, ?_⟩
  · intro token member
    rcases List.mem_append.mp member with inside | inside
    · exact goesOn token inside
    · rintro isEnd
      exact goesOnMore (sameMore ▸ isEnd ▸ List.mem_map_of_mem inside)
  · simpa using unique
  · rw [List.append_assoc]
    exact List.prefix_append used _
  · rw [parseTokens_append, accepted]

theorem Finished.cases {tokens before : List Token} {token : Token} (finished : Finished tokens)
    (starts : before ++ [token] <+: tokens) :
    (token.kind = .eof ∧ tokens = before ++ [token]) ∨
      (token.kind ≠ .eof ∧ ∃ more final, tokens = before ++ token :: more ++ [final]) := by
  obtain ⟨given, final, rfl, ends, goesOn⟩ := finished
  obtain ⟨rest, whole⟩ := starts
  rcases List.eq_nil_or_concat rest with rfl | ⟨more, last, rfl⟩
  · rw [List.append_nil] at whole
    obtain ⟨_, same⟩ := List.append_inj' whole rfl
    cases same
    exact .inl ⟨ends, whole.symm⟩
  · rw [List.concat_eq_append, ← List.append_assoc, List.append_assoc before] at whole
    obtain ⟨rfl, _⟩ := List.append_inj' whole rfl
    exact .inr ⟨goesOn token (by simp), more, final, by simp⟩

theorem not_accepted {tokens before : List Token} {token : Token} {issue : Diagnostic}
    {others : List Diagnostic} (finished : Finished tokens) (places : (tokens.map Token.pos).Nodup)
    (rejected : parseTokens tokens = .error (issue :: others))
    (starts : before ++ [token] <+: tokens) (place : issue.pos = token.pos) {whole : List Token}
    (finishedWhole : Finished whole) (startsWhole : before ++ [token] <+: whole)
    (program : Program) : parseTokens whole ≠ .ok program := by
  intro accepted
  rcases finished.cases starts with ⟨ends, rfl⟩ | ⟨goesOn, more, final, rfl⟩
  · rcases finishedWhole.cases startsWhole with ⟨_, rfl⟩ | ⟨goesOn, _⟩
    · cases rejected.symm.trans accepted
    · exact goesOn ends
  · rcases finishedWhole.cases startsWhole with ⟨ends, _⟩ | ⟨_, instead, last, rfl⟩
    · exact goesOn ends
    · rw [parseTokens_append] at rejected accepted
      simp only [List.map_append, List.map_cons, List.append_assoc, List.cons_append] at places
      have apart := (List.nodup_cons.mp (List.nodup_append.mp places).2.1).1
      have early : issue.pos ≠ final.pos := fun same => apart (by
        rw [← place, same]
        exact List.mem_append_right _ List.mem_cons_self)
      have behind : ∀ other ∈ more, other.pos ≠ issue.pos := fun other inside same => apart (by
        rw [← place, ← same]
        exact List.mem_append_left _ (List.mem_map_of_mem inside))
      obtain ⟨others', error⟩ := (statements_ahead final.pos last.pos .eof _).error
        (before ++ [token]) more instead issue others (List.append_cons before token more)
        (program_issues rejected) early behind
      have silent := (program_ok_iff.mp accepted).1
      rw [List.append_cons] at silent
      cases silent.symm.trans error

/-- What stands before the token at which the first error is starts an accepted list. -/
theorem exists_refused {tokens : List Token} {issue : Diagnostic} {others : List Diagnostic}
    (finished : Finished tokens) (places : (tokens.map Token.pos).Nodup)
    (rejected : parseTokens tokens = .error (issue :: others)) :
    ∃ before token after, tokens = before ++ token :: after ∧ issue.pos = token.pos ∧
      Acceptable before := by
  obtain ⟨given, final, rfl, ends, goesOn⟩ := finished
  rw [parseTokens_append] at rejected
  obtain ⟨before, left, rfl, place, begins⟩ :=
    statements_viable final.pos .eof given issue others (program_issues rejected)
  have unique : (before.map Token.pos).Nodup := places.sublist
    (((List.prefix_append before left).trans (List.prefix_append _ _)).sublist.map _)
  have acceptable := begins.acceptable
    (fun token inside => goesOn token (List.mem_append_left _ inside)) unique
  cases left with
  | nil => exact ⟨before, final, [], by simp, place, acceptable⟩
  | cons token more => exact ⟨before, token, more ++ [final], by simp, place, acceptable⟩

/-- The first error stands at the first token with which nothing accepted starts. -/
theorem first_refused {tokens : List Token} {issues : List Diagnostic} (finished : Finished tokens)
    (places : (tokens.map Token.pos).Nodup) (rejected : parseTokens tokens = .error issues) :
    ∃ before token after issue others, tokens = before ++ token :: after ∧
      issues = issue :: others ∧ issue.pos = token.pos ∧
      (∀ start, start <+: tokens → (Acceptable start ↔ start <+: before)) ∧
      ∀ whole program, Finished whole → before ++ [token] <+: whole →
        parseTokens whole ≠ .ok program := by
  have ⟨given, final, whole, _⟩ := finished
  have failed : issues ≠ [] := by
    rw [whole, parseTokens_append] at rejected
    exact program_error rejected
  obtain ⟨issue, others, rfl⟩ := List.exists_cons_of_ne_nil failed
  obtain ⟨before, token, after, rfl, place, acceptable⟩ := exists_refused finished places rejected
  have starts : before ++ [token] <+: before ++ token :: after := ⟨after, by simp⟩
  have refused {whole : List Token} (finishedWhole : Finished whole) (program : Program)
      (startsWhole : before ++ [token] <+: whole) : parseTokens whole ≠ .ok program :=
    not_accepted finished places rejected starts place finishedWhole startsWhole program
  refine ⟨before, token, after, issue, others, rfl, rfl, place, fun start begins => ⟨?_,
    acceptable.shorter⟩, fun whole program finishedWhole => refused finishedWhole program⟩
  rintro ⟨whole, program, finishedWhole, _, startsWhole, accepted⟩
  rcases List.prefix_or_prefix_of_prefix begins (List.prefix_append before _)
    with less | ⟨rest, rfl⟩
  · exact less
  · cases rest with
    | nil => simp
    | cons next rest =>
        rw [List.prefix_append_right_inj, List.cons_prefix_cons] at begins
        obtain ⟨rfl, _⟩ := begins
        rw [List.append_cons] at startsWhole
        exact absurd accepted
          (refused finishedWhole program ((List.prefix_append _ rest).trans startsWhole))

def strayParen : List Token :=
  [⟨.identifier, text "a", ⟨1, 1⟩⟩, ⟨.assign, [], ⟨1, 3⟩⟩, ⟨.rightParen, [], ⟨1, 5⟩⟩,
    ⟨.semicolon, [], ⟨1, 6⟩⟩, ⟨.eof, [], ⟨1, 7⟩⟩]

theorem first_refused_paren :
    Finished strayParen ∧ (strayParen.map Token.pos).Nodup ∧
      parseTokens strayParen = .error [⟨text "expected expression, found ')'", ⟨1, 5⟩⟩] ∧
      ∃ before token after, strayParen = before ++ token :: after ∧ token.pos = ⟨1, 5⟩ ∧
        (∀ start, start <+: strayParen → (Acceptable start ↔ start <+: before)) ∧
        ∀ whole program, Finished whole → before ++ [token] <+: whole →
          parseTokens whole ≠ .ok program := by
  have finished : Finished strayParen :=
    ⟨strayParen.dropLast, ⟨.eof, [], ⟨1, 7⟩⟩, rfl, rfl, by decide⟩
  have places : (strayParen.map Token.pos).Nodup := by decide
  have rejected : parseTokens strayParen =
      .error [⟨text "expected expression, found ')'", ⟨1, 5⟩⟩] := by
    with_unfolding_all rfl
  obtain ⟨before, token, after, issue, others, whole, same, place, starts, refused⟩ :=
    first_refused finished places rejected
  cases same
  exact ⟨finished, places, rejected, before, token, after, whole, place.symm, starts, refused⟩

end Rover
