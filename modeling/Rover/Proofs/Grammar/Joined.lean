import Mathlib.Algebra.Ring.Int.Defs
import Rover.Proofs.Grammar.Lines

/-!
Sources that are joined with line breaks are parsed as they are one by one: the program of the whole
has the statements of the parts, each part as many lines lower down as there are before it. What a
part spells has no illegal token and closes every bracket that it opens.
-/

namespace Rover

open Rover.Parser

/-- How many brackets are left open. -/
def depth (tokens : List Token) : Int :=
  (tokens.map (·.kind.depth)).sum

structure Regular (tokens : List Token) : Prop where
  legal : ∀ token ∈ tokens, token.kind ≠ .illegal
  closed : depth tokens = 0

section Regular

variable {first second inner : List Token} {token opening closing : Token} {kind : Kind}

theorem regular_nil : Regular [] :=
  ⟨List.forall_mem_nil _, rfl⟩

theorem depth_append (first second : List Token) :
    depth (first ++ second) = depth first + depth second := by
  simp [depth]

theorem Regular.append (regular : Regular first) (more : Regular second) :
    Regular (first ++ second) := by
  refine ⟨fun token member => ?_, ?_⟩
  · rcases List.mem_append.mp member with inFirst | inSecond
    · exact regular.legal token inFirst
    · exact more.legal token inSecond
  · rw [depth_append, regular.closed, more.closed]
    rfl

theorem regular_single (same : token.kind = kind) (legal : kind ≠ .illegal)
    (flat : kind.depth = 0) : Regular [token] := by
  subst same
  exact ⟨List.forall_mem_singleton.mpr legal, by simp [depth, flat]⟩

theorem Regular.cons (regular : Regular first) (same : token.kind = kind) (legal : kind ≠ .illegal)
    (flat : kind.depth = 0) : Regular (token :: first) :=
  (regular_single same legal flat).append regular

theorem Regular.enclosed (regular : Regular inner) (opens : opening.kind.depth = 1)
    (closes : closing.kind.depth = -1) : Regular (opening :: inner ++ [closing]) := by
  have legal {token : Token} (deep : token.kind.depth ≠ 0) : token.kind ≠ .illegal := by
    intro same
    rw [same] at deep
    exact deep rfl
  refine ⟨fun token member => ?_, ?_⟩
  · rcases List.mem_append.mp member with inside | isClosing
    · rcases List.mem_cons.mp inside with rfl | inside
      · exact legal (by rw [opens]; decide)
      · exact regular.legal token inside
    · rw [List.mem_singleton.mp isClosing]
      exact legal (by rw [closes]; decide)
  · have sum := regular.closed
    simp only [depth, List.cons_append, List.map_cons, List.map_append, List.map_nil, List.sum_cons,
      List.sum_append, List.sum_nil, opens, closes] at sum ⊢
    omega

theorem Joins.regular {tier : Tier} {op : BinaryOp} (joins : Joins tier kind op) :
    kind ≠ .illegal ∧ kind.depth = 0 := by
  cases joins <;> decide

theorem Signs.regular {op : UnaryOp} (signs : Signs kind op) :
    kind ≠ .illegal ∧ kind.depth = 0 := by
  cases signs <;> decide

end Regular

theorem Derives.regular {symbol : Symbol} {used : List Token} {tree : symbol.Tree}
    (derived : Derives symbol used tree) : Regular used := by
  induction derived with
  | program _ ends ih => exact ih.append (regular_single ends (by decide) rfl)
  | none => exact regular_nil
  | more _ _ ih ihMore => exact ih.append ihMore
  | branch _ ih | nested _ ih => exact ih
  | loop kind _ _ ihTest ih => exact (ihTest.cons kind (by decide) rfl).append ih
  | @definition _ _ _ _ _ _ constant _ _ kind named assigns _ ends ih =>
      have inner := (ih.cons assigns (by decide) rfl).cons named (by decide) rfl
      have whole := inner.cons kind (by cases constant <;> decide) (by cases constant <;> rfl)
      exact whole.append (regular_single ends (by decide) rfl)
  | effect _ ends ih => exact ih.append (regular_single ends (by decide) rfl)
  | single kind _ _ ihTest ih => exact (ihTest.cons kind (by decide) rfl).append ih
  | chained kind _ _ alternates _ ihTest ih ihLast
  | double kind _ _ alternates _ ihTest ih ihLast =>
      exact ((ihTest.cons kind (by decide) rfl).append ih).append
        (ihLast.cons alternates (by decide) rfl)
  | braced opens _ closes ih => exact ih.enclosed (by rw [opens]; rfl) (by rw [closes]; rfl)
  | valued _ ih | disjunct _ ih | conjunct _ ih | equality _ ih | comparison _ ih | sum _ ih
  | product _ ih | unsigned _ ih | bare _ ih | item _ ih => exact ih
  | assigned _ kind _ ih ihMore | either _ kind _ ih ihMore | both _ kind _ ih ihMore
  | items _ kind _ ih ihMore => exact ih.append (ihMore.cons kind (by decide) rfl)
  | equalities _ joins _ ih ihMore | comparisons _ joins _ ih ihMore | sums _ joins _ ih ihMore
  | products _ joins _ ih ihMore =>
      exact ih.append (ihMore.cons rfl joins.regular.1 joins.regular.2)
  | signed signs _ ih => exact ih.cons rfl signs.regular.1 signs.regular.2
  | call _ opens _ closes ih ihInner | index _ opens _ closes ih ihInner =>
      rw [List.append_assoc]
      exact ih.append (ihInner.enclosed (by rw [opens]; rfl) (by rw [closes]; rfl))
  | int kind | float kind | string kind | name kind => exact regular_single kind (by decide) rfl
  | grouped opens _ closes ih | array opens _ closes ih =>
      exact ih.enclosed (by rw [opens]; rfl) (by rw [closes]; rfl)

theorem program_outcome {finish : Pos} {given : List Token} {program : Program}
    (goesOn : ∀ token ∈ given, token.kind ≠ .eof)
    (accepted : Parser.program finish given = .ok program) :
    (statements finish .eof given).outcome = (some program.body, [], []) := by
  obtain ⟨silent, rfl⟩ := program_ok_iff.mp accepted
  obtain ⟨body, _, result, _⟩ := statements_sound finish .eof given silent
  rw [Step.outcome, silent, result, statements_all finish goesOn]
  rfl

theorem program_below {finish finish' : Pos} {given more : List Token} {first second : Program}
    (goesOn : ∀ token ∈ given, token.kind ≠ .eof) (goesOnMore : ∀ token ∈ more, token.kind ≠ .eof)
    (accepted : Parser.program finish given = .ok first)
    (acceptedMore : Parser.program finish' more = .ok second) (lines : Int) :
    ∃ program, Parser.program finish' (below lines more given) = .ok program ∧
      program.body = Stmt.moveAll lines first.body ++ second.body := by
  have read := program_outcome goesOn accepted
  have readMore := program_outcome goesOnMore acceptedMore
  simp only [Step.outcome, Prod.mk.injEq] at read
  obtain ⟨result, rest, silent⟩ := read
  have noElse : NoElse more := by
    rcases (program_derives goesOnMore acceptedMore).starts with rfl | starts
    · trivial
    · exact starts.noElse
  rw [← @below_nil lines more, ← rest] at readMore
  have whole := statements_continued finish finish' .eof given silent result
    (fun _ => noElse) readMore
  simp only [Step.outcome, Prod.mk.injEq] at whole
  refine ⟨_, program_ok_iff.mpr ⟨whole.2.2, rfl⟩, ?_⟩
  rw [whole.1]
  rfl

/-- Tokens through the end of the source are accepted, and some statements are read from them. -/
def Spells (tokens : List Token) (body : List Stmt) : Prop :=
  ∃ given final program, tokens = given ++ [final] ∧ (∀ token ∈ given, token.kind ≠ .eof) ∧
    Parser.program final.pos given = .ok program ∧ program.body = body

theorem spells_end (final : Token) : Spells [final] [] := by
  have silent : (statements final.pos .eof []).issues = [] := by
    rw [statements]
    rfl
  refine ⟨[], final, _, rfl, List.forall_mem_nil _, program_ok_iff.mpr ⟨silent, rfl⟩, ?_⟩
  rw [statements]
  rfl

theorem Spells.below {given more : List Token} {finish : Pos} {first : Program} {others : List Stmt}
    (spells : Spells more others) (goesOn : ∀ token ∈ given, token.kind ≠ .eof)
    (accepted : Parser.program finish given = .ok first) (lines : Int) :
    Spells (below lines more given) (Stmt.moveAll lines first.body ++ others) := by
  obtain ⟨following, final, second, rfl, goesOnMore, acceptedMore, rfl⟩ := spells
  obtain ⟨program, whole, body⟩ := program_below goesOn goesOnMore accepted acceptedMore lines
  refine ⟨_, final, program, (List.append_assoc _ _ _).symm, fun token member => ?_, whole, body⟩
  rcases List.mem_append.mp member with inGiven | inMore
  · obtain ⟨original, inside, rfl⟩ := List.mem_map.mp inGiven
    exact goesOn original inside
  · exact goesOnMore token inMore

theorem parse_regular {source : Text} {program : Program} (parsed : parse source = .ok program) :
    Regular (tokens source) := by
  obtain ⟨given, final, same, ends, goesOn, accepted⟩ := parse_read parsed
  rw [same]
  exact (program_derives goesOn accepted).regular.append (regular_single ends (by decide) rfl)

def Text.statements (source : Text) : List Stmt :=
  match parse source with
  | .ok program => program.body
  | .error _ => []

theorem statements_of_parsed {source : Text} {program : Program}
    (parsed : parse source = .ok program) : source.statements = program.body := by
  unfold Text.statements
  rw [parsed]

def Accepted (source : Text) : Prop :=
  (∃ program, parse source = .ok program) ∧ '\x00' ∉ source.chars

/-- Sources that are joined with line breaks, each with the number of lines before it. -/
def placed (lines : Int) : List Text → List (Text × Int)
  | [] => []
  | source :: rest => (source, lines) :: placed (lines + (source.chars.count '\n' + 1)) rest

/-- Tokens lower down, with the tokens after a line break behind them. -/
theorem tokens_followed {source : Text} (accepted : Accepted source) {given : List Token}
    {final : Token} (same : tokens source = given ++ [final]) (more : Text) (lines : Int) :
    tokensFrom (source ++ 10 :: more).chars (Pos.start.move lines) =
      below lines (tokensFrom more.chars
        (Pos.start.move (lines + (source.chars.count '\n' + 1)))) given := by
  obtain ⟨⟨program, parsed⟩, whole⟩ := accepted
  have legal : ∀ token ∈ tokensFrom source.chars (Pos.start.move lines), token.kind ≠ .illegal := by
    intro token member
    rw [tokensFrom_move] at member
    obtain ⟨original, inside, rfl⟩ := List.mem_map.mp member
    exact (parse_regular parsed).legal original inside
  rw [Text.chars_break, tokensFrom_break (finishes_of_not_mem whole)
    fun token member unclosed => legal token member unclosed.1, tokensFrom_move, ← tokens, same,
    Pos.past_break, List.map_append, List.map_singleton, List.dropLast_concat]
  rfl

theorem tokens_joined {sources : List Text} (accepted : ∀ source ∈ sources, Accepted source)
    (lines : Int) :
    Spells (tokensFrom (Text.join (text "\n") sources).chars (Pos.start.move lines))
      ((placed lines sources).flatMap fun part => Stmt.moveAll part.2 part.1.statements) := by
  induction sources generalizing lines with
  | nil =>
      rw [Text.join, Text.chars, Text.pieces, List.map_nil, tokensFrom]
      exact spells_end _
  | cons source rest ih =>
      have acceptedFirst := accepted source List.mem_cons_self
      obtain ⟨program, parsed⟩ := acceptedFirst.1
      obtain ⟨given, final, same, _, goesOn, read⟩ := parse_read parsed
      rw [placed, List.flatMap_cons, statements_of_parsed parsed]
      cases rest with
      | nil =>
          rw [Text.join, tokensFrom_move, ← tokens, same, List.map_append, List.map_singleton]
          exact (spells_end _).below goesOn read lines
      | cons second others =>
          have later := ih (fun source member => accepted source (List.mem_cons_of_mem _ member))
            (lines + (source.chars.count '\n' + 1))
          have whole : Text.join (text "\n") (source :: second :: others) =
              source ++ 10 :: Text.join (text "\n") (second :: others) := by
            rw [Text.join, List.append_assoc]
            rfl
          rw [whole, tokens_followed acceptedFirst same]
          exact later.below goesOn read lines

/-- The program of joined sources has their statements one after another. -/
theorem parse_joined {sources : List Text} (accepted : ∀ source ∈ sources, Accepted source) :
    ∃ program, parse (Text.join (text "\n") sources) = .ok program ∧
      program.body =
        (placed 0 sources).flatMap fun part => Stmt.moveAll part.2 part.1.statements := by
  obtain ⟨given, final, program, same, _, read, body⟩ := tokens_joined accepted 0
  refine ⟨program, ?_, body⟩
  unfold parse tokens
  rw [show Pos.start = Pos.start.move 0 from rfl, same, parseTokens_append]
  exact read

end Rover
