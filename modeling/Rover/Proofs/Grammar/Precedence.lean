import Rover.Proofs.Grammar

/-!
Whatever derives from the grammar is read by the parser without an error and up to its end. The
parser reads as far as it can, so what follows must not go on with what is being read; how tightly a
token holds on to what stands before it tells when that is the case.
-/

namespace Rover

open Rover.Parser

namespace Parser.Step

variable {α β : Type} {strict laxer : Bool} {given : List Token}

def outcome (step : Step α strict given) : Option α × List Token × List Diagnostic :=
  (step.result, step.rest, step.issues)

theorem outcome_andThen {first : Step α strict given} {value : α} {rest : List Token}
    {next : α → (rest : List Token) → rest <:+ given →
      (strict = true → rest.length < given.length) → Step β laxer rest}
    {expected : Option β × List Token × List Diagnostic}
    (read : first.outcome = (some value, rest, []))
    (continues : ∀ suffix spent, (next value rest suffix spent).outcome = expected) :
    (first.andThen next).outcome = expected := by
  obtain ⟨result, left, issues, suffix, spent⟩ := first
  simp only [outcome, Prod.mk.injEq] at read
  obtain ⟨rfl, rfl, rfl⟩ := read
  exact continues suffix _

theorem outcome_map {step : Step α strict given} {value : α} {rest : List Token} (convert : α → β)
    (read : step.outcome = (some value, rest, [])) :
    (step.map convert).outcome = (some (convert value), rest, []) := by
  obtain ⟨result, left, issues, suffix, spent⟩ := step
  simp only [outcome, Prod.mk.injEq] at read
  obtain ⟨rfl, rfl, rfl⟩ := read
  rfl

theorem outcome_after {rest : List Token} (step : Step α laxer rest) (token : Token) :
    (step.after token : Step α strict (token :: rest)).outcome = step.outcome := rfl

end Parser.Step

open Rover.Parser.Step (outcome_andThen outcome_map outcome_after)

/-- The tokens are read without an error and up to their end, whatever of a sort follows them. -/
def Reads {α : Type} {strict : Bool} (step : (given : List Token) → Step α strict given)
    (follows : List Token → Prop) (used : List Token) : Prop :=
  ∀ rest, follows rest → ∃ value, (step (used ++ rest)).outcome = (some value, rest, [])

theorem outcome_expect (finish : Pos) (context : Text) {token : Token} {kind : Kind}
    (same : token.kind = kind) (rest : List Token) :
    (expect finish kind context (token :: rest)).outcome = (some token, rest, []) := by
  unfold expect
  dsimp only
  rw [if_pos same]
  rfl

/-- How tightly a token holds on to what stands before it. -/
def Kind.tightness : Kind → Nat
  | .leftParen | .leftSquare => 6
  | .star | .slash => 5
  | .plus | .minus => 4
  | .less | .lessEqual | .greater | .greaterEqual => 3
  | .equal | .notEqual => 2
  | .and | .or | .assign => 1
  | _ => 0

def Parser.Tier.tightness : Tier → Nat
  | .product => 5
  | .sum => 4
  | .comparison => 3
  | .equality => 2

/-- The first token holds less tightly than the level. -/
def Loose (level : Nat) : List Token → Prop
  | [] => True
  | token :: _ => token.kind.tightness < level

theorem Loose.mono {low high : Nat} {rest : List Token} (loose : Loose low rest) (le : low ≤ high) :
    Loose high rest := by
  cases rest with
  | nil => trivial
  | cons token more => exact Nat.lt_of_lt_of_le loose le

theorem tightness_of_operator {tier : Tier} {kind : Kind} {op : BinaryOp}
    (found : tier.operator? kind = some op) : kind.tightness = tier.tightness := by
  cases joins_iff.mpr found <;> rfl

theorem operator_of_loose {tier : Tier} {kind : Kind} (loose : kind.tightness < tier.tightness) :
    tier.operator? kind = none := by
  cases found : tier.operator? kind with
  | none => rfl
  | some op => exact absurd (tightness_of_operator found) (Nat.ne_of_lt loose)

section Tiers

variable (finish : Pos) {tier : Tier}

theorem operands_stop (left : Expr) {rest : List Token} (loose : Loose tier.tightness rest) :
    (operands finish tier left rest).outcome = (some left, rest, []) := by
  rw [operands.eq_def]
  cases rest with
  | nil => rfl
  | cons token more =>
      dsimp only
      rw [operator_of_loose loose]
      rfl

theorem operands_join {left right : Expr} {token : Token} {op : BinaryOp}
    {given rest : List Token} (found : tier.operator? token.kind = some op)
    (read : (operand finish tier given).outcome = (some right, rest, [])) :
    (operands finish tier left (token :: given)).outcome =
      (operands finish tier (.binary op left right token.pos) rest).outcome := by
  rw [operands.eq_def]
  dsimp only
  rw [found]
  dsimp only
  rw [outcome_after]
  exact outcome_andThen read fun _ _ => rfl

def ReadsOperand (tier : Tier) (used : List Token) : Prop :=
  Reads (operand finish tier) (Loose (tier.tightness + 1)) used

def ReadsOperation (tier : Tier) (used : List Token) : Prop :=
  ∀ rest, Loose (tier.tightness + 1) rest →
    ∃ left, (operation finish tier (used ++ rest)).outcome =
      (operands finish tier left rest).outcome

variable {finish} {used left right : List Token}

theorem ReadsOperand.operation (reads : ReadsOperand finish tier used) :
    ReadsOperation finish tier used := by
  intro rest loose
  obtain ⟨tree, read⟩ := reads rest loose
  rw [Parser.operation]
  exact ⟨tree, outcome_andThen read fun _ _ => rfl⟩

theorem ReadsOperation.join {sign : Token} {op : BinaryOp} (reads : ReadsOperation finish tier left)
    (joins : Joins tier sign.kind op) (operand : ReadsOperand finish tier right) :
    ReadsOperation finish tier (left ++ sign :: right) := by
  have found := joins_iff.mp joins
  intro rest loose
  have holds : Loose (tier.tightness + 1) (sign :: (right ++ rest)) :=
    Nat.lt_succ_of_le (Nat.le_of_eq (tightness_of_operator found))
  obtain ⟨first, begins⟩ := reads (sign :: (right ++ rest)) holds
  obtain ⟨second, read⟩ := operand rest loose
  refine ⟨.binary op first second sign.pos, ?_⟩
  rw [List.append_assoc, List.cons_append, begins]
  exact operands_join finish found read

theorem ReadsOperation.stop (reads : ReadsOperation finish tier used) {rest : List Token}
    (loose : Loose tier.tightness rest) :
    ∃ tree, (operation finish tier (used ++ rest)).outcome = (some tree, rest, []) := by
  obtain ⟨tree, same⟩ := reads rest (loose.mono (Nat.le_succ _))
  exact ⟨tree, same.trans (operands_stop finish tree loose)⟩

theorem ReadsOperation.operand {next : Tier} (reads : ReadsOperation finish next used)
    (above : next.tightness = tier.tightness + 1) : ReadsOperand finish tier used := by
  intro rest loose
  obtain ⟨tree, read⟩ := reads.stop (above ▸ loose)
  refine ⟨tree, ?_⟩
  rw [Parser.operand.eq_def]
  cases tier <;> cases next <;> first | exact read | cases above

end Tiers

section Chains

variable (finish : Pos)

def ReadsEquality (used : List Token) : Prop :=
  Reads (operation finish .equality) (Loose 2) used

/-- Equalities with connectives between them. All three connectives have whole expressions to their
right in some derivation, so one token list can derive in several ways; what these have in common is
that any such chain is read as an expression. -/
inductive Connected : List Token → Prop
  | single {used : List Token} (reads : ReadsEquality finish used) : Connected used
  | joined {first rest : List Token} {sign : Token} (reads : ReadsEquality finish first)
      (joins : sign.kind.tightness = 1) (more : Connected rest) :
      Connected (first ++ sign :: rest)

def ReadsExpression (used : List Token) : Prop :=
  Reads (expression finish) (Loose 1) used

/-- What is left of a chain: nothing of it, or a connective of a kind and what follows it. -/
def Remains (kinds : List Kind) (rest left : List Token) (bound : Nat) : Prop :=
  left = rest ∨ ∃ sign more, left = sign :: (more ++ rest) ∧ sign.kind ∈ kinds ∧
    Connected finish more ∧ more.length < bound

def ReadsConjunction (used : List Token) : Prop :=
  ∀ rest, Loose 1 rest → ∃ tree left,
    (conjunction finish (used ++ rest)).outcome = (some tree, left, []) ∧
      Remains finish [.or, .assign] rest left used.length

variable {finish}

theorem ReadsOperation.equality {used : List Token} (reads : ReadsOperation finish .equality used) :
    ReadsEquality finish used :=
  fun _ loose => reads.stop loose

theorem connective_cases {kind : Kind} (joins : kind.tightness = 1) :
    kind = .and ∨ kind = .or ∨ kind = .assign := by
  cases kind <;> simp [Kind.tightness] at joins ⊢

theorem Connected.append {first second : List Token} {sign : Token}
    (connected : Connected finish first) (joins : sign.kind.tightness = 1)
    (more : Connected finish second) : Connected finish (first ++ sign :: second) := by
  induction connected with
  | single reads => exact .joined reads joins more
  | joined reads inner _ ih =>
      rw [List.append_assoc, List.cons_append]
      exact .joined reads inner ih

theorem Loose.kind_ne {level : Nat} {token : Token} {rest : List Token} {kind : Kind}
    (loose : Loose level (token :: rest)) (tight : level ≤ kind.tightness) : token.kind ≠ kind :=
  fun same => Nat.not_le.mpr loose (same ▸ tight)

theorem Connected.conjunction {used : List Token} (connected : Connected finish used)
    (shorter : ∀ more, more.length < used.length → Connected finish more →
      ReadsExpression finish more) : ReadsConjunction finish used := by
  intro rest loose
  cases connected with
  | single reads =>
      obtain ⟨tree, read⟩ := reads rest (loose.mono (by decide))
      refine ⟨tree, rest, ?_, .inl rfl⟩
      rw [Parser.conjunction]
      refine outcome_andThen read fun _ _ => ?_
      cases rest with
      | nil => rfl
      | cons token more =>
          dsimp only
          rw [if_neg (loose.kind_ne (by decide))]
          rfl
  | @joined first others sign reads joins more =>
      have holds : Loose 2 (sign :: (others ++ rest)) :=
        Nat.lt_of_le_of_lt (Nat.le_of_eq joins) (by decide)
      obtain ⟨tree, read⟩ := reads (sign :: (others ++ rest)) holds
      rw [List.append_assoc, List.cons_append, Parser.conjunction]
      have length : others.length < (first ++ sign :: others).length := by
        rw [List.length_append, List.length_cons]
        omega
      rcases connective_cases joins with isAnd | isOther
      · obtain ⟨right, readRight⟩ := shorter others length more rest loose
        refine ⟨.binary .and tree right sign.pos, rest, ?_, .inl rfl⟩
        refine outcome_andThen read fun _ _ => ?_
        dsimp only
        rw [if_pos isAnd, outcome_after]
        exact outcome_map _ readRight
      · refine ⟨tree, sign :: (others ++ rest), ?_, .inr ⟨sign, others, rfl, ?_, more, length⟩⟩
        · refine outcome_andThen read fun _ _ => ?_
          dsimp only
          rw [if_neg]
          · rfl
          · rcases isOther with same | same <;> rw [same] <;> decide
        · simpa using isOther

theorem Remains.mono {kinds : List Kind} {rest left : List Token} {low high : Nat}
    (remains : Remains finish kinds rest left low) (le : low ≤ high) :
    Remains finish kinds rest left high := by
  rcases remains with same | ⟨sign, more, same, member, connected, length⟩
  · exact .inl same
  · exact .inr ⟨sign, more, same, member, connected, Nat.lt_of_lt_of_le length le⟩

theorem disjuncts_stop {left : List Token} (tree : Expr)
    (stops : ∀ token more, left = token :: more → token.kind ≠ .or) :
    (disjuncts finish tree left).outcome = (some tree, left, []) := by
  rw [disjuncts.eq_def]
  cases left with
  | nil => rfl
  | cons token more =>
      dsimp only
      rw [if_neg (stops token more rfl)]
      rfl

theorem Loose.stops {level : Nat} {rest : List Token} (loose : Loose level rest) {kind : Kind}
    (tight : level ≤ kind.tightness) (token : Token) (more : List Token)
    (same : rest = token :: more) : token.kind ≠ kind := by
  subst same
  exact loose.kind_ne tight

theorem disjuncts_remains {rest : List Token} (loose : Loose 1 rest) (bound : Nat)
    (shorter : ∀ more, more.length < bound → Connected finish more → ReadsConjunction finish more)
    {left : List Token} (tree : Expr) (remains : Remains finish [.or, .assign] rest left bound) :
    ∃ result after, (disjuncts finish tree left).outcome = (some result, after, []) ∧
      Remains finish [.assign] rest after bound := by
  induction bound using Nat.strongRecOn generalizing left tree with
  | _ bound ih =>
      rcases remains with rfl | ⟨sign, more, rfl, member, connected, length⟩
      · exact ⟨tree, left, disjuncts_stop tree (loose.stops (by decide)), .inl rfl⟩
      · rcases List.mem_cons.mp member with isOr | other
        · obtain ⟨right, next, read, onward⟩ := shorter more length connected rest loose
          obtain ⟨result, after, readMore, remainsMore⟩ := ih more.length length
            (fun others othersLength => shorter others (Nat.lt_trans othersLength length))
            (.binary .or tree right sign.pos) onward
          refine ⟨result, after, ?_, remainsMore.mono (Nat.le_of_lt length)⟩
          rw [disjuncts.eq_def]
          dsimp only
          rw [if_pos isOr, outcome_after]
          exact outcome_andThen read fun _ _ => readMore
        · have isAssign := List.mem_singleton.mp other
          refine ⟨tree, _, disjuncts_stop tree ?_, .inr ⟨sign, more, rfl, other, connected, length⟩⟩
          rintro _ _ ⟨⟩
          rw [isAssign]
          decide

theorem Connected.reads {used : List Token} (connected : Connected finish used) :
    ReadsExpression finish used := by
  -- on the length of the chain: whatever is left after a connective is shorter
  induction length : used.length using Nat.strongRecOn generalizing used with
  | _ bound ih =>
      have shorter : ∀ more : List Token, more.length < bound → Connected finish more →
          ReadsExpression finish more := fun more less chain => ih more.length less chain rfl
      intro rest loose
      obtain ⟨first, middle, readFirst, remains⟩ := connected.conjunction
        (fun more less => shorter more (length ▸ less)) rest loose
      obtain ⟨second, after, readSecond, remainsToo⟩ := disjuncts_remains loose used.length
        (fun more less chain => chain.conjunction fun others lessToo =>
          shorter others (Nat.lt_trans lessToo (length ▸ less))) first remains
      have read : (disjunction finish (used ++ rest)).outcome = (some second, after, []) := by
        rw [disjunction]
        exact outcome_andThen readFirst fun _ _ => readSecond
      rw [expression]
      rcases remainsToo with rfl | ⟨sign, more, rfl, member, chain, less⟩
      · refine ⟨second, outcome_andThen read fun _ _ => ?_⟩
        cases after with
        | nil => rfl
        | cons token more =>
            dsimp only
            rw [if_neg (loose.kind_ne (by decide))]
            rfl
      · obtain ⟨value, readValue⟩ := shorter more (length ▸ less) chain rest loose
        refine ⟨.binary .assign second value sign.pos, outcome_andThen read fun _ _ => ?_⟩
        dsimp only
        rw [if_pos (List.mem_singleton.mp member), outcome_after]
        exact outcome_map _ readValue

end Chains

end Rover
