import Rover.Proofs.Lexing.Partition
import Rover.Proofs.Sites

namespace Rover

def Expr.places (expr : Expr) : List Pos :=
  expr.parts.map Expr.pos

mutual

/-- Where a statement stands, its blocks, the name that it defines, and all that is inside it. -/
def Stmt.places : Stmt → List Pos
  | .absent => []
  | .eval expr pos => pos :: expr.places
  | .block body pos => pos :: placesAll body
  | .define _ namePos initial _ pos => pos :: namePos :: initial.places
  | .cond condition body bodyPos otherwise pos =>
      pos :: bodyPos :: (condition.places ++ (placesAll body ++ otherwise.places))
  | .loop condition body bodyPos pos => pos :: bodyPos :: (condition.places ++ placesAll body)

def placesAll : List Stmt → List Pos
  | [] => []
  | first :: rest => first.places ++ placesAll rest

end

def Program.places (program : Program) : List Pos :=
  program.pos :: placesAll program.body

def Part.places : (part : Part) → part.Tree → List Pos
  | .expression, expr => expr.places
  | .list, exprs => exprs.flatMap Expr.places
  | .statement, stmt => stmt.places
  | .block, body => body.2 :: placesAll body.1
  | .statements, stmts => placesAll stmts

section Places

variable (pos : Pos)

@[grind =] theorem Expr.places_unary (op : UnaryOp) (operand : Expr) :
    (Expr.unary op operand pos).places = pos :: operand.places := rfl

@[grind =] theorem Expr.places_binary (op : BinaryOp) (left right : Expr) :
    (Expr.binary op left right pos).places = pos :: (left.places ++ right.places) := by
  simp [places, parts, Expr.pos]

@[grind =] theorem Expr.places_index (base position : Expr) :
    (Expr.index base position pos).places = pos :: (base.places ++ position.places) := by
  simp [places, parts, Expr.pos]

theorem map_partsAll (exprs : List Expr) :
    (partsAll exprs).map Expr.pos = exprs.flatMap Expr.places := by
  rw [partsAll_eq_flatMap, List.map_flatMap]
  rfl

@[grind =] theorem Expr.places_array (elements : List Expr) :
    (Expr.array elements pos).places = pos :: elements.flatMap Expr.places := by
  simp [places, parts, Expr.pos, map_partsAll]

@[grind =] theorem Expr.places_call (callee : Expr) (arguments : List Expr) :
    (Expr.call callee arguments pos).places =
      pos :: (callee.places ++ arguments.flatMap Expr.places) := by
  simp [places, parts, Expr.pos, map_partsAll]

end Places

theorem Expr.pos_mem_places (expr : Expr) : expr.pos ∈ expr.places :=
  List.mem_map_of_mem expr.self_mem_parts

theorem Stands.places {part : Part} {used : List Token} {tree : part.Tree}
    (stands : Stands part used tree) : part.places tree ⊆ used.map Token.pos := by
  induction stands with
  | int | float | string | name => simp [Part.places, Expr.places, Expr.parts, Expr.pos]
  | @call _ _ _ _ callee =>
      -- a call has no token of its own, so its place is that of the callee
      have start := callee.pos_mem_places
      grind [Part.places]
  | _ => grind [Part.places, Stmt.places, placesAll]

mutual

theorem Stmt.exprs_places (stmt : Stmt) : stmt.exprs.flatMap Expr.places ⊆ stmt.places := by
  cases stmt with
  | block body pos =>
      have inside := exprsAll_places body
      grind [Stmt.exprs, Stmt.places]
  | cond condition body bodyPos otherwise pos =>
      have inside := exprsAll_places body
      have insideToo := otherwise.exprs_places
      grind [Stmt.exprs, Stmt.places]
  | loop condition body bodyPos pos =>
      have inside := exprsAll_places body
      grind [Stmt.exprs, Stmt.places]
  | _ => grind [Stmt.exprs, Stmt.places]

theorem exprsAll_places (stmts : List Stmt) :
    (exprsAll stmts).flatMap Expr.places ⊆ placesAll stmts := by
  cases stmts with
  | nil => exact List.nil_subset _
  | cons first rest =>
      have inFirst := first.exprs_places
      have inRest := exprsAll_places rest
      grind [exprsAll, placesAll]

end

theorem sited_of_places {places : Pos → Prop} {stmts : List Stmt}
    (inside : ∀ pos ∈ placesAll stmts, places pos) : Sited places (partsAll (exprsAll stmts)) := by
  intro expr member
  apply inside
  apply exprsAll_places stmts
  rw [← map_partsAll]
  exact List.mem_map_of_mem member

structure Pos.InSource (source : Text) (pos : Pos) : Prop where
  token : ∃ token ∈ tokens source, token.pos = pos
  known : pos ≠ .unknown

theorem Token.inSource {source : Text} {token : Token} (member : token ∈ tokens source) :
    token.pos.InSource source := by
  obtain ⟨slices, trivia, rest, cut⟩ := tokensFrom_partition [] source.chars
  obtain ⟨chars, stands⟩ := cut.token_behind token member
  refine ⟨⟨token, member, rfl⟩, fun unknown => ?_⟩
  have line := congrArg Pos.line (stands.symm.trans unknown)
  simp only [Pos.after, Pos.unknown] at line
  omega

/-- A program that a source spells stands at the first token of the source, its nodes stand where
they should, and the errors of its runs stand at tokens of the source. -/
theorem positions_in_source {source : Text} {program : Program}
    (parsed : parse source = .ok program) :
    (∃ given final, tokens source = given ++ [final] ∧ Stands .statements given program.body) ∧
    (tokens source).head?.map Token.pos = some program.pos ∧
    (∀ pos ∈ program.places, pos.InSource source) ∧
    ∀ options fuel machine,
      Recorded (Pos.InSource source) machine (reached (program.run options fuel machine)) := by
  obtain ⟨given, final, same, _, goesOn, read⟩ := parse_read parsed
  have stands := (program_placed goesOn read).stands
  have first : (tokens source).head?.map Token.pos = some program.pos := by
    obtain ⟨_, rfl⟩ := program_ok_iff.mp read
    rw [same]
    cases given <;> rfl
  have inside : ∀ pos ∈ placesAll program.body, pos.InSource source := by
    intro pos member
    obtain ⟨token, used, rfl⟩ := List.mem_map.mp (stands.places member)
    exact Token.inSource (same ▸ List.mem_append_left _ used)
  refine ⟨⟨given, final, same, stands⟩, first, fun pos member => ?_, fun options fuel machine => ?_⟩
  · rcases List.mem_cons.mp member with rfl | later
    · obtain ⟨token, found, stands⟩ := Option.map_eq_some_iff.mp first
      exact stands ▸ Token.inSource (List.mem_of_head? found)
    · exact inside pos later
  · exact run_recorded options fuel (sited_of_places inside) machine

def outOfBounds : Text := text "var a = [1];\n(a)[2];"

/-- The error stands at the bracket. -/
theorem positions_in_source_index : ∃ program, parse outOfBounds = .ok program ∧
    (reached (program.run ⟨false, 0, none, none⟩ 0 .new)).errors =
      #[⟨.indexBounds 2 1, ⟨2, 4⟩⟩] ∧
    Pos.InSource outOfBounds ⟨2, 4⟩ := by
  have passes : (parse outOfBounds).toOption.any (fun program =>
      (reached (program.run ⟨false, 0, none, none⟩ 0 .new)).errors =
        #[⟨.indexBounds 2 1, ⟨2, 4⟩⟩]) = true := by
    decide +kernel
  obtain ⟨program, parsed, tested⟩ := exists_parsed passes
  have errors := of_decide_eq_true tested
  obtain ⟨_, _, _, recorded⟩ := positions_in_source parsed
  obtain ⟨added, same, inside⟩ := recorded ⟨false, 0, none, none⟩ 0 .new
  rw [errors] at same
  have all : [⟨.indexBounds 2 1, ⟨2, 4⟩⟩] = added := same
  exact ⟨program, parsed, errors, inside _ (all ▸ List.mem_cons_self)⟩

end Rover
