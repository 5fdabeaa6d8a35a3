import Rover.Proofs.Safety.Execution

/-!
The machines in which a program's expressions are evaluated, from the first statement on and between
any two steps of an expression. In each of them every array is held in one place, and no variable is
without a value.
-/

namespace Rover

/-- A machine arises from one with a single scope by executing statements, by going into and out of
the scopes of their bodies, and by the steps of their expressions, however each of these ends. -/
inductive Machine.Arises : Machine → Prop
  | fresh {machine : Machine} :
      machine.Sound → machine.Whole → machine.scopes.length = 1 → Arises machine
  | executed {machine : Machine} (options : Options) (fuel : Nat) {stmt : Stmt} :
      Arises machine → stmt.Spelled → Arises (reached (execute options fuel stmt machine))
  | evaluated {machine : Machine} (options : Options) {expr : Expr} :
      Arises machine → expr.Spelled → Arises (reached (evaluate options expr machine))
  | located {machine : Machine} (options : Options) {expr : Expr} :
      Arises machine → expr.Spelled → Arises (reached (locate options expr machine))
  | entered {machine : Machine} :
      Arises machine → Arises { machine with scopes := [] :: machine.scopes }
  | left {machine : Machine} :
      Arises machine → Arises { machine with scopes := machine.scopes.tail }
  | cleared {machine : Machine} : Arises machine → Arises { machine with orphans := [] }
  | noted {machine : Machine} (errors : Array RuntimeError) (events : Array Event) :
      Arises machine → Arises { machine with errors, events }

section Actions

variable {α : Type} {action : Eval α} {machine : Machine}

theorem reached_sound {may : Text → Prop} {post : α → Machine → Prop}
    (keeps : Keeps may machine action machine post) : (reached (action machine)).Sound :=
  leads_reached.mp (Leads.mono keeps (fun _ _ kept => kept.1.after) fun _ _ evolves =>
    evolves.after)

theorem reached_whole {options : Options} {sought : Expr → Prop} {pops : Prop}
    {moments : List Moment} {done : α → Machine → Prop}
    (runs : Runs options sought pops machine action machine moments done) :
    (reached (action machine)).Whole :=
  leads_reached.mp (Leads.mono runs (fun _ _ ended => ended.1.whole) fun _ _ stopped => stopped.1)

theorem fits_any (exprs : List Expr) : Fits (fun _ => True) True exprs :=
  ⟨fun _ _ _ _ => trivial, fun _ _ _ => trivial⟩

theorem execute_orderly (options : Options) (fuel : Nat) {stmt : Stmt} (spelled : stmt.Spelled)
    (sound : machine.Sound) (whole : machine.Whole) :
    (reached (execute options fuel stmt machine)).Sound ∧
      (reached (execute options fuel stmt machine)).Whole := by
  have executes : Executes options (fun _ => True) _ _ _ :=
    execute_executes options fuel spelled fun _ _ _ _ => trivial
  constructor
  · exact leads_reached.mp ((execute_proceeds options fuel stmt machine sound).mono
      (fun _ _ course => course.sound) fun _ _ course => course.sound)
  · exact leads_reached.mp ((executes machine sound whole).mono (fun _ _ ended => ended.1)
      fun _ _ stopped => stopped.1)

end Actions

namespace Machine.Arises

variable {machine : Machine}

theorem orderly (arises : machine.Arises) : machine.Sound ∧ machine.Whole := by
  induction arises with
  | fresh sound whole _ => exact ⟨sound, whole⟩
  | executed options fuel _ spelled before =>
      exact execute_orderly options fuel spelled before.1 before.2
  | @evaluated machine options expr _ spelled before =>
      obtain ⟨sound, whole⟩ := before
      exact ⟨reached_sound (evaluate_keeps options expr machine sound),
        reached_whole (evaluate_runs options spelled (fits_any _) machine sound whole)⟩
  | @located machine options expr _ spelled before =>
      obtain ⟨sound, whole⟩ := before
      exact ⟨reached_sound (locate_keeps options expr machine sound),
        reached_whole (locate_runs options spelled (fits_any _) (fun _ _ => trivial)
          machine sound whole)⟩
  | entered _ before => exact ⟨⟨before.1.once, before.1.below⟩, before.2.enter⟩
  | left _ before => exact ⟨before.1.close, before.2.leave⟩
  | cleared _ before => exact ⟨before.1.clear, before.2.clear⟩
  | noted errors events _ before => exact ⟨⟨before.1.once, before.1.below⟩, before.2⟩

theorem sound (arises : machine.Arises) : machine.Sound :=
  arises.orderly.1

theorem whole (arises : machine.Arises) : machine.Whole :=
  arises.orderly.2

end Machine.Arises

end Rover
