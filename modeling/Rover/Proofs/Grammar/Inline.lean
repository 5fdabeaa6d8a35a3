import Rover.Proofs.Grammar.Refusal

/-!
Which tokens can be used up. No step reads past the end of a file, and an expression has neither
semicolons nor braces nor keywords, so where it fails it has not gone past any of them either.
-/

namespace Rover

open Rover.Parser

def Kind.inline : Kind → Bool
  | .eof | .illegal | .ifWord | .elseWord | .whileWord | .varWord | .constWord | .leftBrace
  | .rightBrace | .semicolon | .unknown _ => false
  | _ => true

/-- Whether a token of some kind may occur in what derives from a symbol. -/
def Symbol.admits : Symbol → Kind → Bool
  | .program, _ => true
  | .statements, kind | .statement, kind | .conditional, kind | .block, kind => kind ≠ .eof
  | _, kind => kind.inline

theorem Kind.ne_eof_of_inline {kind : Kind} (inline : kind.inline = true) : kind ≠ .eof := by
  rintro rfl
  cases inline

section Admits

variable {symbol : Symbol} {used : List Token}

def Admits (symbol : Symbol) (used : List Token) : Prop :=
  ∀ token ∈ used, symbol.admits token.kind = true

theorem admits_nil : Admits symbol [] := List.forall_mem_nil _

theorem Admits.append {more : List Token} (admits : Admits symbol used)
    (others : Admits symbol more) : Admits symbol (used ++ more) :=
  List.forall_mem_append.mpr ⟨admits, others⟩

theorem Admits.cons {token : Token} {kind : Kind} (admits : Admits symbol used)
    (same : token.kind = kind) (fits : symbol.admits kind = true) : Admits symbol (token :: used) :=
  List.forall_mem_cons.mpr ⟨same ▸ fits, admits⟩

theorem Admits.statement (admits : Admits .expression used) : Admits .statement used :=
  fun token member => decide_eq_true (Kind.ne_eof_of_inline (admits token member))

theorem Joins.inline {tier : Tier} {kind : Kind} {op : BinaryOp} (joins : Joins tier kind op) :
    kind.inline = true := by
  cases joins <;> rfl

theorem Signs.inline {kind : Kind} {op : UnaryOp} (signs : Signs kind op) : kind.inline = true := by
  cases signs <;> rfl

end Admits

theorem Derives.admits {symbol : Symbol} {used : List Token} {tree : symbol.Tree}
    (derived : Derives symbol used tree) : Admits symbol used := by
  induction derived with
  | program _ _ _ => exact fun _ _ => rfl
  | none => exact admits_nil
  | more _ _ ih ihMore => exact Admits.append ih ihMore
  | branch _ ih | nested _ ih => exact ih
  | loop kind _ _ ihTest ih => exact ((Admits.statement ihTest).cons kind rfl).append ih
  | @definition _ _ _ _ _ _ constant _ _ kind named assigns _ ends ih =>
      refine Admits.append ?_ (admits_nil.cons ends rfl)
      refine (((Admits.statement ih).cons assigns rfl).cons named rfl).cons kind ?_
      cases constant <;> rfl
  | effect _ ends ih => exact (Admits.statement ih).append (admits_nil.cons ends rfl)
  | single kind _ _ ihTest ih => exact ((Admits.statement ihTest).cons kind rfl).append ih
  | chained kind _ _ alternates _ ihTest ih ihLast
  | double kind _ _ alternates _ ihTest ih ihLast =>
      exact (((Admits.statement ihTest).cons kind rfl).append ih).append
        (Admits.cons ihLast alternates rfl)
  | braced opens _ closes ih => exact (Admits.cons ih opens rfl).append (admits_nil.cons closes rfl)
  | valued _ ih | disjunct _ ih | conjunct _ ih | equality _ ih | comparison _ ih | sum _ ih
  | product _ ih | unsigned _ ih | bare _ ih | item _ ih => exact ih
  | assigned _ kind _ ih ihMore | either _ kind _ ih ihMore | both _ kind _ ih ihMore
  | items _ kind _ ih ihMore => exact Admits.append ih (Admits.cons ihMore kind rfl)
  | equalities _ joins _ ih ihMore | comparisons _ joins _ ih ihMore | sums _ joins _ ih ihMore
  | products _ joins _ ih ihMore => exact Admits.append ih (Admits.cons ihMore rfl joins.inline)
  | signed signs _ ih => exact Admits.cons ih rfl signs.inline
  | call _ opens _ closes ih ihInner | index _ opens _ closes ih ihInner =>
      exact (Admits.append ih (Admits.cons ihInner opens rfl)).append (admits_nil.cons closes rfl)
  | int kind | float kind | string kind | name kind => exact admits_nil.cons kind rfl
  | grouped opens _ closes ih | array opens _ closes ih =>
      exact (Admits.cons ih opens rfl).append (admits_nil.cons closes rfl)

theorem Begins.admits {symbol : Symbol} {used : List Token}
    (begins : Begins (Derives symbol) used) : Admits symbol used := by
  obtain ⟨kinds, _, completes⟩ := begins
  obtain ⟨tree, derived⟩ := completes (kinds.map fun kind => ⟨kind, [], .start⟩)
    ((List.map_map ..).trans (List.map_id kinds))
  exact fun token member => derived.admits token (List.mem_append_left _ member)

/-- The kinds of tokens in a statement without blocks, behind its keyword. -/
def Kind.plain (kind : Kind) : Bool := kind.inline || kind == .semicolon

/-- A step ends without an error behind tokens that fit, or it refuses a token behind those of an
expression. -/
structure Flat {α : Type} {strict : Bool} {given : List Token} (finish : Pos) (fits : Kind → Bool)
    (step : Step α strict given) : Prop where
  done : ∀ value, step.result = some value → step.issues = [] ∧
    ∃ used, given = used ++ step.rest ∧ ∀ token ∈ used, fits token.kind = true
  refused : step.result = none → ∃ used left issue, given = used ++ left ∧ step.issues = [issue] ∧
    Refusal finish left step.rest issue ∧ Admits .expression used

section Flat

variable {α β : Type} {strict laxer : Bool} {finish : Pos} {given : List Token} {fits : Kind → Bool}

theorem Flat.map {step : Step α strict given} (flat : Flat finish fits step) (convert : α → β) :
    Flat finish fits (step.map convert) := by
  refine ⟨fun value found => ?_, fun failed => flat.refused (Option.map_eq_none_iff.mp failed)⟩
  obtain ⟨original, found, _⟩ := Option.map_eq_some_iff.mp found
  exact flat.done original found

theorem Flat.andThen {first : Step α strict given}
    {next : α → (rest : List Token) → rest <:+ given →
      (strict = true → rest.length < given.length) → Step β laxer rest}
    (flat : Flat finish Kind.inline first) (wider : ∀ kind, kind.inline = true → fits kind = true)
    (continues : ∀ value rest suffix spent, Flat finish fits (next value rest suffix spent)) :
    Flat finish fits (first.andThen next) := by
  obtain ⟨result, rest, issues, suffix, spent⟩ := first
  cases result with
  | none => exact ⟨nofun, fun _ => flat.refused rfl⟩
  | some value =>
      obtain ⟨silent, used, whole, inline⟩ := flat.done value rfl
      dsimp only at silent whole
      subst silent
      have later := continues value rest suffix (spent rfl)
      refine ⟨fun final finished => ?_, fun failed => ?_⟩
      · obtain ⟨silent, more, same, fit⟩ := later.done final finished
        refine ⟨silent, used ++ more, ?_, List.forall_mem_append.mpr
          ⟨fun token member => wider _ (inline token member), fit⟩⟩
        rw [List.append_assoc]
        exact whole.trans (congrArg (used ++ ·) same)
      · obtain ⟨more, left, issue, same, single, refusal, others⟩ := later.refused failed
        refine ⟨used ++ more, left, issue, ?_, single, refusal,
          List.forall_mem_append.mpr ⟨inline, others⟩⟩
        rw [List.append_assoc]
        exact whole.trans (congrArg (used ++ ·) same)

theorem flat_refuse (expected : Text) :
    Flat finish fits (refuse finish expected given : Step α strict given) := by
  obtain ⟨issue, rest, failed, refusal⟩ : ∃ issue rest,
      (refuse finish expected given : Step α strict given).outcome = (none, rest, [issue]) ∧
        Refusal finish given rest issue := refusal_refuse expected
  simp only [Step.outcome, Prod.mk.injEq] at failed
  obtain ⟨result, rfl, issues⟩ := failed
  refine ⟨fun value found => ?_, fun _ => ⟨[], given, issue, rfl, issues, refusal, admits_nil⟩⟩
  cases result.symm.trans found

theorem flat_expect {kind : Kind} (context : Text) (fit : fits kind = true) :
    Flat finish fits (expect finish kind context given) := by
  cases given with
  | nil => exact flat_refuse _
  | cons token rest =>
      rw [expect]
      by_cases same : token.kind = kind
      · rw [if_pos same]
        refine ⟨fun _ _ => ⟨rfl, [token], rfl, ?_⟩, fun failed => by cases failed⟩
        exact List.forall_mem_singleton.mpr (same ▸ fit)
      · rw [if_neg same]
        exact flat_refuse _

variable (finish) (given)

theorem expression_flat : Flat finish Kind.inline (expression finish given) := by
  have halts := expression_halts finish given
  refine ⟨fun value found => ?_, fun failed => ?_⟩
  · have silent := halts.silent value found
    obtain ⟨_, used, _, whole, derived⟩ := (expression_sound finish given).derived silent
    exact ⟨silent, used, whole, derived.admits⟩
  · obtain ⟨used, left, issue, whole, single, refusal, begins⟩ := halts.refused failed
    exact ⟨used, left, issue, whole, single, refusal, begins.admits⟩

theorem plain_of_inline (kind : Kind) (inline : kind.inline = true) : kind.plain = true := by
  rw [Kind.plain, inline, Bool.true_or]

theorem simple_flat : Flat finish Kind.plain (simple finish given) := by
  unfold simple
  exact (expression_flat finish given).andThen plain_of_inline
    fun _ _ _ _ => (flat_expect _ rfl).map _

theorem definition_flat (keyword : Token) :
    Flat finish Kind.plain (definition finish keyword given) := by
  unfold definition
  refine (flat_expect _ rfl).andThen plain_of_inline fun name afterName _ _ => ?_
  refine (flat_expect _ rfl).andThen plain_of_inline fun sign afterSign _ _ => ?_
  exact (expression_flat finish afterSign).andThen plain_of_inline
    fun _ _ _ _ => (flat_expect _ rfl).map _

end Flat

end Rover
