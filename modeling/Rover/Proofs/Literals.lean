import Rover.Proofs.Lexing.Partition
import Rover.Proofs.Safety.Execution

/-!
The integer literals of a source are the texts of its integer tokens, so they have no sign, and no
literal is read as a negative number.
-/

namespace Rover

def Text.IsDecimal (bytes : Text) : Prop :=
  ∃ digits : List Char, digits ≠ [] ∧ (∀ char ∈ digits, char.isDigit = true) ∧
    bytes = ofChars digits

def Plain (parts : List Expr) : Prop :=
  ∀ digits pos, Expr.int digits pos ∈ parts → digits.IsDecimal

theorem Plain.mono {parts others : List Expr} (plain : Plain parts) (subset : others ⊆ parts) :
    Plain others :=
  fun digits pos member => plain digits pos (subset member)

theorem Reading.sign_of_isDigit {digits : List Char}
    (all : ∀ char ∈ digits, char.isDigit = true) : sign digits = (false, digits) := by
  unfold sign
  split
  · exact absurd (all '-' List.mem_cons_self) (by decide)
  · exact absurd (all '+' List.mem_cons_self) (by decide)
  · rfl

theorem Reading.integer?_of_isDigit {digits : List Char} (nonempty : digits ≠ [])
    (all : ∀ char ∈ digits, char.isDigit = true) :
    integer? digits = some (decimal digits : Int) := by
  have given : digits ≠ [] ∧ digits.all Char.isDigit := ⟨nonempty, List.all_eq_true.mpr all⟩
  rw [integer?, sign_of_isDigit all]
  exact if_pos given

theorem Reading.int64?_nonneg {bytes : Text} (isDecimal : bytes.IsDecimal) {number : Int64}
    (read : int64? bytes = some number) : 0 ≤ number.toInt := by
  obtain ⟨digits, nonempty, all, rfl⟩ := isDecimal
  rw [int64?, Text.chars_ofChars, integer?_of_isDigit nonempty all] at read
  dsimp only at read
  split at read
  · next fits =>
      cases read
      rw [Int64.toInt_minValue, Int64.toInt_maxValue] at fits
      rw [Int64.toInt_ofInt_of_le fits.1 (Int.lt_of_le_sub_one fits.2)]
      exact Int.natCast_nonneg _
  · cases read

theorem Denotes.isDecimal {next chars : List Char} {text : Text}
    (denoted : Denotes next chars .int text) : text.IsDecimal := by
  cases denoted with
  | word reserved _ => exact absurd reserved (by decide)
  | int nonempty all => exact ⟨chars, nonempty, all, rfl⟩
  | sign known _ => exact absurd known (by decide)

theorem tokens_isDecimal (source : Text) :
    ∀ token ∈ tokens source, token.kind = .int → token.text.IsDecimal := by
  intro token member isInt
  obtain ⟨slices, trivia, rest, cut⟩ := tokensFrom_partition [] source.chars
  change token ∈ tokensFrom source.chars (Pos.after []) at member
  rw [cut.tokens, List.mem_append, List.mem_map, List.mem_singleton] at member
  rcases member with ⟨slice, inside, rfl⟩ | rfl
  · obtain ⟨earlier, later, split⟩ := List.append_of_mem inside
    have denotes := (cut.fits earlier slice later split).denotes
    rw [isInt] at denotes
    exact denotes.isDecimal
  · cases isInt

def Token.integer? (token : Token) : Option Text :=
  if token.kind = .int then some token.text else none

def Expr.integer? : Expr → Option Text
  | .int digits _ => some digits
  | _ => none

def Symbol.exprs : (symbol : Symbol) → symbol.Tree → List Expr
  | .program, body | .statements, body | .block, body => exprsAll body
  | .statement, stmt | .conditional, stmt => stmt.exprs
  | .list, exprs => exprs
  | .expression, expr | .disjunction, expr | .conjunction, expr | .operation _, expr
  | .unary, expr | .applied, expr | .primary, expr => [expr]

def Expr.integers (expr : Expr) : List Text :=
  expr.parts.filterMap Expr.integer?

def integersAll (exprs : List Expr) : List Text :=
  exprs.flatMap Expr.integers

section Integers

variable (pos : Pos)

@[simp] theorem Expr.integers_unary (op : UnaryOp) (operand : Expr) :
    (Expr.unary op operand pos).integers = operand.integers := rfl

@[simp] theorem Expr.integers_binary (op : BinaryOp) (left right : Expr) :
    (Expr.binary op left right pos).integers = left.integers ++ right.integers :=
  List.filterMap_append

@[simp] theorem Expr.integers_index (base position : Expr) :
    (Expr.index base position pos).integers = base.integers ++ position.integers :=
  List.filterMap_append

theorem filterMap_partsAll (exprs : List Expr) :
    (partsAll exprs).filterMap Expr.integer? = integersAll exprs := by
  rw [partsAll_eq_flatMap, List.filterMap_flatMap]
  rfl

@[simp] theorem Expr.integers_array (elements : List Expr) :
    (Expr.array elements pos).integers = integersAll elements :=
  filterMap_partsAll elements

@[simp] theorem Expr.integers_call (callee : Expr) (arguments : List Expr) :
    (Expr.call callee arguments pos).integers = callee.integers ++ integersAll arguments := by
  rw [← filterMap_partsAll]
  exact List.filterMap_append

end Integers

theorem Joins.ne_int {tier : Parser.Tier} {kind : Kind} {op : BinaryOp}
    (joins : Joins tier kind op) : kind ≠ .int := by
  cases joins <;> exact Kind.noConfusion

theorem Signs.ne_int {kind : Kind} {op : UnaryOp} (signs : Signs kind op) : kind ≠ .int := by
  cases signs <;> exact Kind.noConfusion

/-- Wherever a tree is put together from others, so are its tokens, and what comes between them is
no integer. -/
theorem Derives.integers {symbol : Symbol} {used : List Token} {tree : symbol.Tree}
    (derived : Derives symbol used tree) :
    integersAll (symbol.exprs tree) = used.filterMap Token.integer? := by
  induction derived with
  | int kind | float kind | string kind | name kind =>
      simp [Symbol.exprs, integersAll, Expr.integers, Expr.parts, Expr.integer?, Token.integer?,
        kind]
  | @definition _ _ _ _ _ _ constant =>
      cases constant <;>
        simp_all [Symbol.exprs, Stmt.exprs, integersAll, Token.integer?]
  | equalities _ joins | comparisons _ joins | sums _ joins | products _ joins =>
      have other := joins.ne_int
      simp_all [Symbol.exprs, integersAll, Token.integer?]
  | signed signs =>
      have other := signs.ne_int
      simp_all [Symbol.exprs, integersAll, Token.integer?]
  | _ =>
      simp_all [Symbol.exprs, Stmt.exprs, exprsAll, integersAll, Token.integer?]

/-- The integer literals of a program that parses have digits only. -/
theorem parse_plain {source : Text} {program : Program} (parsed : parse source = .ok program) :
    Plain (partsAll (exprsAll program.body)) := by
  obtain ⟨given, final, same, _, goesOn, read⟩ := parse_read parsed
  intro digits pos member
  have literal : digits ∈ (partsAll (exprsAll program.body)).filterMap Expr.integer? :=
    List.mem_filterMap.mpr ⟨_, member, rfl⟩
  rw [filterMap_partsAll] at literal
  have integers := (program_derives goesOn read).integers
  change integersAll (exprsAll program.body) = _ at integers
  rw [integers, List.mem_filterMap] at literal
  obtain ⟨token, used, found⟩ := literal
  unfold Token.integer? at found
  split at found
  · next isInt =>
      cases found
      exact tokens_isDecimal source token (same ▸ List.mem_append_left _ used) isInt
  · cases found

end Rover
