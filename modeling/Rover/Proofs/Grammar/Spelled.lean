import Rover.Proofs.Grammar.Acceptance

/-!
The trees that sources spell. They have no absent part and no operator beyond the known ones, and a
conditional goes on with a block or with another conditional, if it goes on at all.
-/

namespace Rover

mutual

def Expr.Spelled : Expr → Prop
  | .absent => False
  | .int _ _ | .float _ _ | .str _ _ | .name _ _ => True
  | .array elements _ => Expr.SpelledAll elements
  | .unary op operand _ => op ∈ [UnaryOp.negate, .not] ∧ operand.Spelled
  | .binary op left right _ => op ∈ BinaryOp.known ∧ left.Spelled ∧ right.Spelled
  | .call callee arguments _ => callee.Spelled ∧ Expr.SpelledAll arguments
  | .index base position _ => base.Spelled ∧ position.Spelled

def Expr.SpelledAll : List Expr → Prop
  | [] => True
  | first :: rest => first.Spelled ∧ Expr.SpelledAll rest

end

def Stmt.declared? : Stmt → Option (Text × Bool)
  | .define name _ _ constant _ => some (name, constant)
  | _ => none

mutual

def Stmt.Spelled : Stmt → Prop
  | .absent => False
  | .eval expr _ => expr.Spelled
  | .block body _ => Stmt.SpelledAll body
  | .define _ _ initial _ _ => initial.Spelled
  | .cond condition body _ otherwise _ =>
      condition.Spelled ∧ Stmt.SpelledAll body ∧
        (otherwise = .absent ∨ otherwise.declared? = none ∧ otherwise.Spelled)
  | .loop condition body _ _ => condition.Spelled ∧ Stmt.SpelledAll body

def Stmt.SpelledAll : List Stmt → Prop
  | [] => True
  | first :: rest => first.Spelled ∧ Stmt.SpelledAll rest

end

def Symbol.Spelled : (symbol : Symbol) → symbol.Tree → Prop
  | .program, body | .statements, body | .block, body => Stmt.SpelledAll body
  | .statement, stmt => stmt.Spelled
  | .conditional, stmt => stmt.declared? = none ∧ stmt.Spelled
  | .list, exprs => Expr.SpelledAll exprs
  | .expression, expr | .disjunction, expr | .conjunction, expr | .operation _, expr
  | .unary, expr | .applied, expr | .primary, expr => expr.Spelled

theorem Joins.known {tier : Parser.Tier} {kind : Kind} {op : BinaryOp}
    (joins : Joins tier kind op) : op ∈ BinaryOp.known := by
  cases joins <;> decide

theorem Signs.known {kind : Kind} {op : UnaryOp} (signs : Signs kind op) :
    op ∈ [UnaryOp.negate, .not] := by
  cases signs <;> decide

theorem Derives.spelled {symbol : Symbol} {used : List Token} {tree : symbol.Tree}
    (derived : Derives symbol used tree) : symbol.Spelled tree := by
  induction derived with
  | program _ _ ih => exact ih
  | none => trivial
  | more _ _ ih ihMore => exact ⟨ih, ihMore⟩
  | branch _ ih => exact ih.2
  | loop _ _ _ ihTest ih => exact ⟨ihTest, ih⟩
  | nested _ ih => exact ih
  | definition _ _ _ _ _ ih => exact ih
  | effect _ _ ih => exact ih
  | single _ _ _ ihTest ih => exact ⟨rfl, ihTest, ih, .inl rfl⟩
  | chained _ _ _ _ _ ihTest ih ihLast => exact ⟨rfl, ihTest, ih, .inr ihLast⟩
  | double _ _ _ _ _ ihTest ih ihLast => exact ⟨rfl, ihTest, ih, .inr ⟨rfl, ihLast⟩⟩
  | braced _ _ _ ih => exact ih
  | valued _ ih | disjunct _ ih | conjunct _ ih | equality _ ih | comparison _ ih | sum _ ih
  | product _ ih | unsigned _ ih | bare _ ih => exact ih
  | assigned _ _ _ ih ihMore | either _ _ _ ih ihMore | both _ _ _ ih ihMore =>
      exact ⟨by decide, ih, ihMore⟩
  | equalities _ joins _ ih ihMore | comparisons _ joins _ ih ihMore | sums _ joins _ ih ihMore
  | products _ joins _ ih ihMore => exact ⟨joins.known, ih, ihMore⟩
  | signed signs _ ih => exact ⟨signs.known, ih⟩
  | call _ _ _ _ ih ihList => exact ⟨ih, ihList⟩
  | index _ _ _ _ ih ihIndex => exact ⟨ih, ihIndex⟩
  | int | float | string | name => trivial
  | grouped _ _ _ ih => exact ih
  | array _ _ _ ih => exact ih
  | item _ ih => exact ⟨ih, trivial⟩
  | items _ _ _ ih ihMore => exact ⟨ih, ihMore⟩

theorem tokensFrom_ended (source : List Char) (pos : Pos) :
    ∃ given final, tokensFrom source pos = given ++ [final] ∧ final.kind = .eof ∧
      ∀ token ∈ given, token.kind ≠ .eof := by
  fun_induction tokensFrom source pos with
  | case1 source pos step ends => exact ⟨[], step.token, rfl, ends, List.forall_mem_nil _⟩
  | case2 source pos step more ih =>
      obtain ⟨given, final, same, ends, goesOn⟩ := ih
      exact ⟨step.token :: given, final, by rw [same, List.cons_append], ends,
        List.forall_mem_cons.mpr ⟨more, goesOn⟩⟩

theorem parse_read {source : Text} {program : Program} (parsed : parse source = .ok program) :
    ∃ given final, tokens source = given ++ [final] ∧ final.kind = .eof ∧
      (∀ token ∈ given, token.kind ≠ .eof) ∧ Parser.program final.pos given = .ok program := by
  obtain ⟨given, final, same, ends, goesOn⟩ := tokensFrom_ended source.chars .start
  unfold parse tokens at parsed
  rw [same, parseTokens_append] at parsed
  exact ⟨given, final, same, ends, goesOn, parsed⟩

theorem parse_spelled {source : Text} {program : Program} (parsed : parse source = .ok program) :
    Stmt.SpelledAll program.body := by
  obtain ⟨given, final, _, _, goesOn, read⟩ := parse_read parsed
  exact (program_derives goesOn read).spelled

theorem exists_ok {ε α : Type} {result : Except ε α} {test : α → Bool}
    (passes : result.toOption.any test = true) :
    ∃ value, result = .ok value ∧ test value = true := by
  cases result with
  | error error => cases passes
  | ok value => exact ⟨value, rfl, passes⟩

/-- A test that the program of a source passes also decides that there is one. -/
theorem exists_parsed {source : Text} {test : Program → Bool}
    (passes : (parse source).toOption.any test = true) :
    ∃ program, parse source = .ok program ∧ test program = true :=
  exists_ok passes

end Rover
