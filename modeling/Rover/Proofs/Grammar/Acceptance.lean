import Rover.Proofs.Grammar.Complete
import Rover.Proofs.Grammar.Sound

/-!
The parser accepts exactly its grammar. That it goes on after an error does not change what it
accepts: a statement that fails leaves an error behind, and errors are never taken back.
-/

namespace Rover

open Rover.Parser

/-- The statements are read up to the end or a token that ends them, whatever failed on the way. -/
theorem statements_ended (finish : Pos) (closing : Kind) (given : List Token) :
    Ended closing (statements finish closing given).rest := by
  induction length : given.length using Nat.strongRecOn generalizing given with
  | _ bound ih =>
      rw [statements.eq_def]
      cases given with
      | nil => trivial
      | cons token rest =>
          dsimp only
          split
          · next stop => exact stop
          · next goesOn =>
              split
              · next left issues suffix spent found =>
                  exact ih left.length (length ▸ spent rfl rfl) left rfl
              · next left issues suffix spent found =>
                  have shorter := length_stepOver_recover_lt
                    (fun final => goesOn (.inr final)) suffix
                  exact ih _ (length ▸ shorter) _ rfl

theorem statements_all (finish : Pos) {given : List Token}
    (goesOn : ∀ token ∈ given, token.kind ≠ .eof) : (statements finish .eof given).rest = [] := by
  have ended := statements_ended finish .eof given
  have suffix := (statements finish .eof given).suffix
  cases left : (statements finish .eof given).rest with
  | nil => rfl
  | cons token more =>
      rw [left] at ended suffix
      have final : token.kind = .eof := by
        rcases ended with kind | kind <;> exact kind
      exact absurd final (goesOn token (suffix.subset List.mem_cons_self))

theorem program_ok_iff {finish : Pos} {given : List Token} {program : Program} :
    Parser.program finish given = .ok program ↔ (statements finish .eof given).issues = [] ∧
      program = ⟨(statements finish .eof given).result.getD [], (peek finish given).pos⟩ := by
  unfold Parser.program
  dsimp only
  split
  · next silent =>
      rw [silent]
      constructor
      · intro same
        cases same
        exact ⟨rfl, rfl⟩
      · rintro ⟨_, rfl⟩
        rfl
  · next failed =>
      constructor
      · intro same
        cases same
      · rintro ⟨silent, _⟩
        exact absurd silent failed

theorem program_error {finish : Pos} {given : List Token} {issues : List Diagnostic}
    (failed : Parser.program finish given = .error issues) : issues ≠ [] := by
  unfold Parser.program at failed
  dsimp only at failed
  split at failed
  · cases failed
  · next found =>
      cases failed
      exact found

theorem program_issues {finish : Pos} {given : List Token} {issues : List Diagnostic}
    (failed : Parser.program finish given = .error issues) :
    (statements finish .eof given).issues = issues := by
  unfold Parser.program at failed
  dsimp only at failed
  split at failed
  · cases failed
  · cases failed
    rfl

theorem program_placed {finish : Pos} {given : List Token} {program : Program}
    (goesOn : ∀ token ∈ given, token.kind ≠ .eof)
    (accepted : Parser.program finish given = .ok program) :
    Placed (Derives .statements) (Stands .statements) given program.body := by
  obtain ⟨silent, rfl⟩ := program_ok_iff.mp accepted
  obtain ⟨body, used, result, whole, placed⟩ := statements_sound finish .eof given silent
  rw [statements_all finish goesOn, List.append_nil] at whole
  rw [result, whole]
  exact placed

theorem program_derives {finish : Pos} {given : List Token} {program : Program}
    (goesOn : ∀ token ∈ given, token.kind ≠ .eof)
    (accepted : Parser.program finish given = .ok program) :
    Derives .statements given program.body :=
  (program_placed goesOn accepted).derived

theorem program_accepts {given : List Token} {body : List Stmt} (finish : Pos)
    (derived : Derives .statements given body) :
    ∃ program, Parser.program finish given = .ok program := by
  obtain ⟨value, read⟩ := derived.complete finish .eof (.inr rfl) [] trivial
  rw [List.append_nil] at read
  have silent : (statements finish .eof given).issues = [] := congrArg (·.2.2) read
  exact ⟨_, program_ok_iff.mpr ⟨silent, rfl⟩⟩

theorem parseTokens_append (given : List Token) (final : Token) :
    parseTokens (given ++ [final]) = Parser.program final.pos given := by
  simp [parseTokens]

theorem derives_program_iff {given : List Token} {final : Token} (ends : final.kind = .eof)
    {body : List Stmt} :
    Derives .program (given ++ [final]) body ↔ Derives .statements given body := by
  constructor
  · intro derived
    generalize whole : given ++ [final] = tokens at derived
    cases derived with
    | program derived _ =>
        obtain ⟨rfl, _⟩ := List.append_inj' whole rfl
        exact derived
  · intro derived
    exact .program derived ends

/-- Of the token lists that only their last token ends, those are accepted that derive from the
grammar, and the program returned is the tree of a derivation. The others are refused with an
error. -/
theorem parseTokens_exact (given : List Token) (final : Token) (ends : final.kind = .eof)
    (goesOn : ∀ token ∈ given, token.kind ≠ .eof) :
    ((∃ program, parseTokens (given ++ [final]) = .ok program) ↔
      ∃ body, Derives .program (given ++ [final]) body) ∧
    (∀ program, parseTokens (given ++ [final]) = .ok program →
      Derives .program (given ++ [final]) program.body) ∧
    ∀ issues, parseTokens (given ++ [final]) = .error issues → issues ≠ [] := by
  rw [parseTokens_append]
  have sound : ∀ program, Parser.program final.pos given = .ok program →
      Derives .program (given ++ [final]) program.body :=
    fun program accepted => .program (program_derives goesOn accepted) ends
  refine ⟨⟨?_, ?_⟩, sound, fun issues => program_error⟩
  · rintro ⟨program, accepted⟩
    exact ⟨program.body, sound program accepted⟩
  · rintro ⟨body, derived⟩
    exact program_accepts final.pos ((derives_program_iff ends).mp derived)

/-- The right operand of `&&` is an assignment: `a && b = c;`. -/
def assignedConjunct : List Token :=
  [⟨.identifier, text "a", ⟨1, 1⟩⟩, ⟨.and, [], ⟨1, 3⟩⟩, ⟨.identifier, text "b", ⟨1, 6⟩⟩,
    ⟨.assign, [], ⟨1, 8⟩⟩, ⟨.identifier, text "c", ⟨1, 10⟩⟩, ⟨.semicolon, [], ⟨1, 11⟩⟩]

theorem parseTokens_exact_conjunct :
    (∀ token ∈ assignedConjunct, token.kind ≠ .eof) ∧
      ∃ program, parseTokens (assignedConjunct ++ [⟨.eof, [], ⟨1, 12⟩⟩]) = .ok program := by
  have goesOn : ∀ token ∈ assignedConjunct, token.kind ≠ .eof := by decide
  have name (token : Token) (kind : token.kind = .identifier) :
      Derives (.operation .equality) [token] (.name token.text .start) :=
    .equality (.comparison (.sum (.product (.unsigned (.bare (.name kind))))))
  have value (token : Token) (kind : token.kind = .identifier) :
      Derives .disjunction [token] (.name token.text .start) :=
    .disjunct (.conjunct (name token kind))
  have right : Derives .expression
      ([⟨.identifier, text "b", ⟨1, 6⟩⟩] ++ ⟨.assign, [], ⟨1, 8⟩⟩ ::
        [⟨.identifier, text "c", ⟨1, 10⟩⟩])
      (.binary .assign (.name (text "b") .start) (.name (text "c") .start) .start) :=
    .assigned (value _ rfl) rfl (.valued (value _ rfl))
  have whole : Derives .expression assignedConjunct.dropLast
      (.binary .and (.name (text "a") .start)
        (.binary .assign (.name (text "b") .start) (.name (text "c") .start) .start) .start) :=
    .valued (.disjunct (.both (name ⟨.identifier, text "a", ⟨1, 1⟩⟩ rfl) rfl right))
  have statement : Derives .statement assignedConjunct (.eval _ .start) := .effect whole rfl
  obtain ⟨accepts, _⟩ := parseTokens_exact assignedConjunct ⟨.eof, [], ⟨1, 12⟩⟩ rfl goesOn
  exact ⟨goesOn, accepts.mpr ⟨_, .program (.more statement .none) rfl⟩⟩

end Rover
