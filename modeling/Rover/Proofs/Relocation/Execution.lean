import Rover.Proofs.Relocation.Evaluation

namespace Rover

variable {twins : Twins} {options : Options}

theorem mirrors_while {test testMirror : Eval Value} {body bodyMirror : Eval Unit}
    (tested : Mirrors twins test testMirror Eq) (repeated : Mirrors twins body bodyMirror Eq)
    (fuel : Nat) :
    Mirrors twins (repeatWhile test body fuel) (repeatWhile testMirror bodyMirror fuel) Eq := by
  induction fuel with
  | zero =>
      refine mirrors_throw fun error same => ?_
      cases same
  | succ fuel ih =>
      refine tested.seq fun value => ?_
      split
      · exact repeated.seq fun _ => ih
      · exact mirrors_pure rfl

mutual

theorem execute_moved (apart : options.Apart twins.label) (fuel : Nat) {stmt : Stmt}
    (spelled : stmt.Spelled) :
    Mirrors twins (execute options fuel stmt)
      (execute options fuel (stmt.move twins.lines)) Eq := by
  cases stmt with
  | absent => exact spelled.elim
  | eval expr pos =>
      rw [Stmt.move, execute, execute]
      exact (evaluate_moved apart spelled).complete.seq fun _ => mirrors_pure rfl
  | block body pos =>
      rw [Stmt.move, execute, execute]
      exact (executeAll_moved apart fuel spelled).inScope
  | define name namePos initial constant pos =>
      rw [Stmt.move, execute, execute]
      exact (evaluate_moved apart spelled).complete.seq fun value =>
        mirrors_define name value constant
  | cond condition body bodyPos otherwise pos =>
      rw [Stmt.move, execute, execute]
      refine (evaluate_moved apart spelled.1).complete.seq fun value => ?_
      rw [Stmt.isAbsent_move]
      split
      · exact (executeAll_moved apart fuel spelled.2.1).inScope
      · split
        · exact mirrors_pure rfl
        · next present =>
            rcases spelled.2.2 with absent | ⟨_, spelledOther⟩
            · rw [absent] at present
              exact absurd rfl present
            · exact execute_moved apart fuel spelledOther
  | loop condition body bodyPos pos =>
      rw [Stmt.move, execute, execute]
      exact mirrors_while (evaluate_moved apart spelled.1).complete
        (executeAll_moved apart fuel spelled.2).inScope fuel

theorem executeAll_moved (apart : options.Apart twins.label) (fuel : Nat) {stmts : List Stmt}
    (spelled : Stmt.SpelledAll stmts) :
    Mirrors twins (executeAll options fuel stmts)
      (executeAll options fuel (Stmt.moveAll twins.lines stmts)) Eq := by
  cases stmts with
  | nil =>
      rw [Stmt.moveAll, executeAll]
      exact mirrors_pure rfl
  | cons first rest =>
      rw [Stmt.moveAll, executeAll, executeAll]
      exact (execute_moved apart fuel spelled.1).seq fun _ => executeAll_moved apart fuel spelled.2

end

theorem executeAll_append (fuel : Nat) (first second : List Stmt) :
    executeAll options fuel (first ++ second) =
      (executeAll options fuel first >>= fun _ => executeAll options fuel second) := by
  induction first with
  | nil =>
      rw [List.nil_append, executeAll]
      rfl
  | cons stmt rest ih =>
      rw [List.cons_append, executeAll, executeAll, ih]
      simp only [bind_assoc]

theorem run_of_single {machine : Machine} (single : machine.scopes.length = 1) (fuel : Nat)
    (program : Program) :
    program.run options fuel machine = executeAll options fuel program.body machine := by
  obtain ⟨globals, scopes⟩ := List.length_eq_one_iff.mp single
  obtain ⟨chain, orphans, next, errors, events⟩ := machine
  change chain = [globals] at scopes
  subst scopes
  unfold Program.run Machine.globally
  have whole : [globals].getLast?.toList = [globals] := rfl
  dsimp only
  rw [whole]
  cases executeAll options fuel program.body ⟨[globals], orphans, next, errors, events⟩ <;> rfl

end Rover
