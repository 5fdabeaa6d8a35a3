import Rover.Proofs.Grammar.Spelled
import Rover.Proofs.Strictness

/-!
Scoping is static. The outline of a chain of scopes is what remains of it without the values: the
names of each scope and their flags. Expressions never change it, a definition changes one entry of
its innermost scope, and no other statement changes it, whatever is defined inside.
-/

namespace Rover

def Scope.outline (scope : Scope Value) : Scope Unit :=
  scope.map fun entry => (entry.1, ⟨(), entry.2.constant⟩)

def Chain.outline (chain : Chain Value) : Chain Unit :=
  chain.map Scope.outline

@[simp] theorem Chain.outline_nil : Chain.outline [] = [] := rfl

@[simp] theorem Chain.outline_cons (scope : Scope Value) (outer : Chain Value) :
    Chain.outline (scope :: outer) = scope.outline :: outer.outline := rfl

theorem Chain.outline_tail (chain : Chain Value) :
    Chain.outline chain.tail = chain.outline.tail :=
  List.map_tail

theorem Scope.find?_outline (scope : Scope Value) (name : Text) :
    scope.outline.find? name = (scope.find? name).map fun binding => ⟨(), binding.constant⟩ := by
  induction scope with
  | nil => rfl
  | cons entry rest ih =>
      change (if entry.1 = name then _ else Scope.find? (Scope.outline rest) name) = _
      rw [ih, Scope.find?]
      split <;> rfl

theorem Scope.outline_define (scope : Scope Value) (name : Text) (binding : Binding Value) :
    (scope.define name binding).outline = scope.outline.define name ⟨(), binding.constant⟩ := by
  induction scope with
  | nil => rfl
  | cons entry rest ih =>
      change Scope.outline (if entry.1 = name then _ else entry :: Scope.define name binding rest) =
        if entry.1 = name then _ else _ :: Scope.define name _ (Scope.outline rest)
      rw [← ih]
      split <;> rfl

theorem Scope.define_same {α : Type} {scope : Scope α} {name : Text} {binding : Binding α}
    (found : scope.find? name = some binding) : scope.define name binding = scope := by
  induction scope with
  | nil => cases found
  | cons entry rest ih =>
      rw [Scope.find?] at found
      rw [Scope.define]
      split at found
      · next same =>
          cases found
          rw [if_pos same]
      · next differs => rw [if_neg differs, ih found]

theorem Chain.outline_define (chain : Chain Value) (name : Text) (binding : Binding Value) :
    (chain.define name binding).outline = chain.outline.define name ⟨(), binding.constant⟩ := by
  cases chain with
  | nil => rfl
  | cons scope outer =>
      change (scope.define name binding).outline :: Chain.outline outer = _
      rw [Scope.outline_define]
      rfl

theorem Chain.outline_set (chain : Chain Value) (name : Text) (value : Value) :
    (chain.set name value).outline = chain.outline := by
  induction chain with
  | nil => rfl
  | cons scope outer ih =>
      rw [Chain.set]
      cases found : scope.find? name with
      | none => rw [outline_cons, outline_cons, ih]
      | some binding =>
          rw [outline_cons, outline_cons, Scope.outline_define, Scope.define_same]
          rw [Scope.find?_outline, found]
          rfl

theorem outline_preserved :
    Preserved fun old new => new.scopes.outline = old.scopes.outline where
  refl _ := rfl
  trans first second := second.trans first
  event _ _ := rfl
  error _ _ := rfl
  next _ _ _ := rfl
  orphans _ _ := rfl
  array machine stamp change := by
    simp [Machine.modifyArray, Chain.outline, Scope.outline, Function.comp_def]
  set machine name value := Chain.outline_set machine.scopes name value

/-- What a statement does to the outline where it is executed. -/
def Stmt.declare (stmt : Stmt) (outline : Chain Unit) : Chain Unit :=
  match stmt.declared? with
  | some (name, constant) => outline.define name ⟨(), constant⟩
  | none => outline

def declareAll (stmts : List Stmt) (outline : Chain Unit) : Chain Unit :=
  stmts.foldl (fun outline stmt => stmt.declare outline) outline

theorem Stmt.declare_of_none {stmt : Stmt} (free : stmt.declared? = none) (outline : Chain Unit) :
    stmt.declare outline = outline := by
  rw [declare, free]

theorem Stmt.declare_tail (stmt : Stmt) (outline : Chain Unit) :
    (stmt.declare outline).tail = outline.tail := by
  rw [declare]
  split
  · cases outline <;> rfl
  · rfl

theorem declareAll_tail (stmts : List Stmt) (outline : Chain Unit) :
    (declareAll stmts outline).tail = outline.tail := by
  induction stmts generalizing outline with
  | nil => rfl
  | cons first rest ih => exact (ih _).trans (first.declare_tail outline)

/-- However it ends, the action leaves the outline that it found. -/
abbrev KeepsOutline {α : Type} (action : Eval α) : Prop :=
  Respects (fun old new => new.scopes.outline = old.scopes.outline) action

theorem complete_outline (options : Options) (expr : Expr) :
    KeepsOutline (Machine.complete (evaluate options expr)) :=
  outline_preserved.complete (outline_preserved.evaluate options expr)

/-- The action declares what the statements do, or stops with only the innermost scope changed. -/
def Declares (stmts : List Stmt) (action : Eval Unit) : Prop :=
  ∀ machine, Leads action machine
    (fun _ after => after.scopes.outline = declareAll stmts machine.scopes.outline)
    (fun _ after => after.scopes.outline.tail = machine.scopes.outline.tail)

theorem inScope_outline {stmts : List Stmt} {action : Eval Unit} (inner : Declares stmts action) :
    KeepsOutline (Machine.inScope action) := by
  intro machine
  rw [leads_inScope]
  apply (inner _).mono
  · intro _ after declared
    change Chain.outline after.scopes.tail = _
    rw [Chain.outline_tail, declared, declareAll_tail]
    rfl
  · intro _ after kept
    change Chain.outline after.scopes.tail = _
    rw [Chain.outline_tail, kept]
    rfl

mutual

theorem execute_outline (options : Options) (fuel : Nat) {stmt : Stmt} (spelled : stmt.Spelled)
    (machine : Machine) :
    Leads (execute options fuel stmt) machine
      (fun _ after => after.scopes.outline = stmt.declare machine.scopes.outline)
      (fun _ after => after.scopes.outline = machine.scopes.outline) := by
  cases stmt with
  | absent => exact spelled.elim
  | eval expr pos =>
      rw [execute, leads_bind]
      exact complete_outline options expr machine
  | block body pos =>
      rw [execute]
      exact inScope_outline (executeAll_outline options fuel spelled) machine
  | define name namePos initial constant pos =>
      rw [execute, leads_bind]
      apply (complete_outline options initial machine).mono
      · intro value after same
        change Chain.outline (after.scopes.define name ⟨value, constant⟩) = _
        rw [Chain.outline_define, same]
        rfl
      · exact fun _ _ same => same
  | cond condition body bodyPos otherwise pos =>
      obtain ⟨_, bodySpelled, alternative⟩ := spelled
      rw [execute, leads_bind]
      apply (complete_outline options condition machine).mono
      · intro value after same
        split
        · rw [← same]
          exact inScope_outline (executeAll_outline options fuel bodySpelled) after
        · rcases alternative with rfl | ⟨free, otherSpelled⟩
          · exact same
          · split
            · exact same
            · have executed := execute_outline options fuel otherSpelled after
              rw [Stmt.declare_of_none free, same] at executed
              exact executed
      · exact fun _ _ same => same
  | loop condition body bodyPos pos =>
      rw [execute]
      exact outline_preserved.repeatWhile (complete_outline options condition)
        (inScope_outline (executeAll_outline options fuel spelled.2)) fuel machine

theorem executeAll_outline (options : Options) (fuel : Nat) {stmts : List Stmt}
    (spelled : Stmt.SpelledAll stmts) : Declares stmts (executeAll options fuel stmts) := by
  intro machine
  cases stmts with
  | nil =>
      rw [executeAll]
      rfl
  | cons first rest =>
      rw [executeAll, leads_bind]
      apply (execute_outline options fuel spelled.1 machine).mono
      · intro _ after same
        apply (executeAll_outline options fuel spelled.2 after).mono
        · intro _ final declared
          rw [declared, same]
          rfl
        · intro _ final kept
          rw [kept, same, Stmt.declare_tail]
      · intro _ after same
        rw [same]

end

def Program.declared? (program : Program) (name : Text) : Option Bool :=
  (program.body.filterMap Stmt.declared?).reverse.lookup name

theorem declareAll_single (stmts : List Stmt) (scope : Scope Unit) :
    declareAll stmts [scope] =
      [(stmts.filterMap Stmt.declared?).foldl
        (fun scope entry => scope.define entry.1 ⟨(), entry.2⟩) scope] := by
  induction stmts generalizing scope with
  | nil => rfl
  | cons first rest ih =>
      change declareAll rest (first.declare [scope]) = _
      cases found : first.declared? with
      | none => rw [Stmt.declare_of_none found, ih, List.filterMap_cons_none found]
      | some entry =>
          rw [Stmt.declare, found, List.filterMap_cons_some found]
          exact ih _

/-- Of several definitions of a name the last one counts. -/
theorem Scope.find?_foldl_define (entries : List (Text × Bool)) (scope : Scope Unit)
    (name : Text) :
    Scope.find? (entries.foldl (fun scope entry => scope.define entry.1 ⟨(), entry.2⟩) scope) name =
      ((entries.reverse.lookup name).map (⟨(), ·⟩)).or (scope.find? name) := by
  induction entries generalizing scope with
  | nil => rfl
  | cons first rest ih =>
      obtain ⟨own, constant⟩ := first
      rw [List.foldl_cons, ih, Scope.find?_define, List.reverse_cons, List.lookup_append]
      by_cases same : own = name
      · subst same
        cases rest.reverse.lookup own <;> simp
      · have differs : (name == own) = false := by simpa using Ne.symm same
        simp [List.lookup_cons, differs, same]

theorem Machine.globals_of_append {machine : Machine} {inner : Chain Value} {scope : Scope Value}
    (scopes : machine.scopes = inner ++ [scope]) : machine.globals = scope := by
  rw [globals, scopes, List.getLast?_concat, Option.getD_some]

theorem run_outline (options : Options) (fuel : Nat) {program : Program} {machine after : Machine}
    (spelled : Stmt.SpelledAll program.body) (global : machine.scopes ≠ [])
    (ran : program.run options fuel machine = .ok () after) :
    after.scopes.dropLast = machine.scopes.dropLast ∧
      after.globals.outline = (program.body.filterMap Stmt.declared?).foldl
        (fun scope entry => scope.define entry.1 ⟨(), entry.2⟩) machine.globals.outline := by
  obtain ⟨inner, scope, scopes⟩ := List.eq_nil_or_concat machine.scopes |>.resolve_left global
  rw [List.concat_eq_append] at scopes
  have leads : Leads (program.run options fuel) machine
      (fun _ after => ∃ final, after.scopes = inner ++ [final] ∧
        [Scope.outline final] = declareAll program.body [scope.outline]) fun _ _ => True := by
    unfold Program.run
    rw [leads_globally, scopes, List.getLast?_concat, List.dropLast_concat]
    apply (executeAll_outline options fuel spelled _).mono
    · intro _ after declared
      have single : after.scopes.outline = declareAll program.body [scope.outline] := declared
      rw [declareAll_single] at single ⊢
      obtain ⟨final, same, outlined⟩ := List.map_eq_singleton_iff.mp single
      exact ⟨final, by rw [same], by rw [outlined]⟩
    · exact fun _ _ _ => trivial
  obtain ⟨final, same, outlined⟩ := leads.of_ok ran
  rw [declareAll_single, List.cons.injEq] at outlined
  rw [Machine.globals_of_append same, Machine.globals_of_append scopes, same, scopes,
    List.dropLast_concat, List.dropLast_concat]
  exact ⟨rfl, outlined.1⟩

/-- A definition changes the entry of its name in the innermost scope once its value is there, and
no other statement changes any name or flag. After a run that comes to its end, the outermost scope
holds the names that it held before and those that the program defines at its top level. -/
theorem scoping_static (options : Options) (fuel : Nat) (machine : Machine) :
    (∀ tokens stmt, Derives .statement tokens stmt →
      (reached (execute options fuel stmt machine)).scopes.outline =
        match stmt with
        | .define name _ initial constant _ =>
            match Machine.complete (evaluate options initial) machine with
            | .ok _ _ => machine.scopes.outline.define name ⟨(), constant⟩
            | .error _ _ => machine.scopes.outline
        | _ => machine.scopes.outline) ∧
    ∀ source program after, parse source = .ok program → machine.scopes ≠ [] →
      program.run options fuel machine = .ok () after →
        after.scopes.dropLast = machine.scopes.dropLast ∧
          ∀ name, (after.globals.find? name).map (·.constant) =
            (program.declared? name).or ((machine.globals.find? name).map (·.constant)) := by
  constructor
  · intro tokens stmt derived
    have executed := execute_outline options fuel derived.spelled machine
    cases stmt with
    | define name namePos initial constant pos =>
        dsimp only
        rw [execute] at executed ⊢
        cases result : Machine.complete (evaluate options initial) machine with
        | ok value after =>
            rw [bind_of_ok result]
            exact executed.of_ok (bind_of_ok result)
        | error stop after =>
            rw [bind_of_error result]
            exact executed.of_error (bind_of_error result)
    | _ => exact leads_reached.mp executed
  · intro source program after parsed global ran
    obtain ⟨inner, outlined⟩ := run_outline options fuel (parse_spelled parsed) global ran
    refine ⟨inner, fun name => ?_⟩
    have found : after.globals.outline.find? name = _ := congrArg (Scope.find? · name) outlined
    rw [Scope.find?_foldl_define, Scope.find?_outline, Scope.find?_outline] at found
    have flags := congrArg (Option.map Binding.constant) found
    simpa [Program.declared?, Option.map_or, Function.comp_def] using flags

def shadowed : Text :=
  text "var a = 1; if a { var a = 2; var b = 3; } const a = 4;"

def undefinedInitial : List Token :=
  [⟨.constWord, text "const", ⟨1, 1⟩⟩, ⟨.identifier, text "a", ⟨1, 7⟩⟩, ⟨.assign, [], ⟨1, 9⟩⟩,
    ⟨.identifier, text "b", ⟨1, 11⟩⟩, ⟨.semicolon, [], ⟨1, 12⟩⟩]

theorem scoping_static_shadowed :
    (∃ stmt, Derives .statement undefinedInitial stmt ∧
      (reached (execute ⟨true, 0, none, none⟩ 0 stmt Machine.new)).scopes.outline = [[]]) ∧
    ∃ program after, parse shadowed = .ok program ∧
      program.run ⟨false, 0, none, none⟩ 0 Machine.new = .ok () after ∧
        (after.globals.find? (text "a")).map (·.constant) = some true ∧
          (after.globals.find? (text "b")).map (·.constant) = none := by
  constructor
  · have initial : Derives .expression [⟨.identifier, text "b", ⟨1, 11⟩⟩]
        (.name (text "b") ⟨1, 11⟩) :=
      .valued (.disjunct (.conjunct (.equality (.comparison (.sum (.product
        (.unsigned (.bare (.name rfl)))))))))
    have derived : Derives .statement undefinedInitial
        (.define (text "a") ⟨1, 7⟩ (.name (text "b") ⟨1, 11⟩) true ⟨1, 1⟩) :=
      @Derives.definition _ _ _ ⟨.semicolon, [], ⟨1, 12⟩⟩ _ _ _ _ _ rfl rfl rfl initial rfl
    exact ⟨_, derived, (scoping_static ⟨true, 0, none, none⟩ 0 Machine.new).1 _ _ derived⟩
  · have passes : (parse shadowed).toOption.any (fun program =>
        program.declared? (text "a") = some true ∧ program.declared? (text "b") = none ∧
          (Machine.new.after (program.run ⟨false, 0, none, none⟩ 0)).1 = none) = true := by
      decide +kernel
    obtain ⟨program, parsed, tested⟩ := exists_parsed passes
    obtain ⟨constant, inner, ended⟩ := of_decide_eq_true tested
    cases ran : program.run ⟨false, 0, none, none⟩ 0 Machine.new with
    | error stop after => simp [Machine.after, ran] at ended
    | ok _ after =>
        obtain ⟨_, flags⟩ := (scoping_static ⟨false, 0, none, none⟩ 0 Machine.new).2
          shadowed program after parsed (List.cons_ne_nil _ _) ran
        refine ⟨program, after, parsed, ran, ?_, ?_⟩
        · rw [flags, constant, Option.some_or]
        · rw [flags, inner, Option.none_or]
          rfl

end Rover
