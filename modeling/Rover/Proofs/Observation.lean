import Mathlib.Data.List.Forall2
import Rover.Proofs.Composition
import Rover.Proofs.Parts
import Rover.Proofs.Paths
import Rover.Proofs.Strictness

/-!
Expressions without targets. They look at variables and change none, and nothing else that a machine
holds matters to them: over the same variables such an expression always comes to the same deep
value.
-/

namespace Rover

section Deep

variable (options : Options)

@[simp] theorem Value.truthy_deep (value : Value) : value.deep.truthy = value.truthy := by
  cases value <;> rfl

@[simp] theorem Value.printed_deep (value : Value) : value.deep.printed = value.printed := by
  cases value <;> rfl

theorem kindOf_deep (value : Value) : Machine.kindOf value.deep = Machine.kindOf value := by
  cases value <;> rfl

theorem unary_deep (op : UnaryOp) (operand : Value) (pos : Pos) :
    Operation.unary options op operand.deep pos = Operation.unary options op operand pos := by
  cases operand with
  | arr stamp elements => cases op <;> rfl
  | _ => rfl

theorem arithmetic_deep (op : BinaryOp) (left right : Value) (pos : Pos) :
    Operation.arithmetic options op left.deep right.deep pos =
      Operation.arithmetic options op left right pos := by
  cases left <;> cases right <;> rfl

theorem comparison_deep (op : BinaryOp) (left right : Value) (pos : Pos) :
    Operation.comparison options op left.deep right.deep pos =
      Operation.comparison options op left right pos := by
  cases left <;> cases right <;> rfl

theorem binary_deep (op : BinaryOp) (left right : Value) (pos : Pos) :
    Operation.binary options op left.deep right.deep pos =
      Operation.binary options op left right pos := by
  unfold Operation.binary
  cases op with
  | and | or => simp only [Value.truthy_deep]
  | add | subtract | multiply | divide => exact arithmetic_deep options _ left right pos
  | equal | notEqual | less | lessEqual | greater | greaterEqual =>
      exact comparison_deep options _ left right pos
  | assign | other _ => rfl

theorem checkIndex_deep (elements : List Value) (pos : Pos) (index : Value) :
    checkIndex (Value.deepAll elements) pos index.deep = checkIndex elements pos index := by
  cases index with
  | int number => simp [checkIndex, Value.deep, Value.deepAll_eq_map]
  | _ => rfl

end Deep

/-- Both runs end in the same way, and with the variables as they were. -/
inductive Observed {α : Type} (same : α → α → Prop) (chain : Chain Value) :
    EStateM.Result Stop Machine α → EStateM.Result Stop Machine α → Prop
  | ok {value other : α} {here there : Machine} : same value other → here.scopes = chain →
      there.scopes = chain → Observed same chain (.ok value here) (.ok other there)
  | error {stop : Stop} {here there : Machine} : here.scopes = chain → there.scopes = chain →
      Observed same chain (.error stop here) (.error stop there)

/-- Over the same variables both actions end in the same way, and they change no variable. -/
def Observes {α : Type} (same : α → α → Prop) (action other : Eval α) : Prop :=
  ∀ chain (here there : Machine), here.scopes = chain → there.scopes = chain →
    Observed same chain (action here) (other there)

def Value.Like (value other : Value) : Prop :=
  value.deep = other.deep

def Value.LikeAll (values others : List Value) : Prop :=
  deepAll values = deepAll others

section Observes

variable {options : Options} {α β : Type} {same : α → α → Prop} {action other : Eval α}

theorem observes_pure {value another : α} (equal : same value another) :
    Observes same (pure value) (pure another) :=
  fun _ _ _ here there => .ok equal here there

theorem observes_throw (stop : Stop) : Observes same (throw stop : Eval α) (throw stop) :=
  fun _ _ _ here there => .error here there

theorem Observes.bind {final : β → β → Prop} {next next' : α → Eval β}
    (first : Observes same action other)
    (second : ∀ value another, same value another → Observes final (next value) (next' another)) :
    Observes final (action >>= next) (other >>= next') := by
  intro chain here there hereSame thereSame
  have begins := first chain here there hereSame thereSame
  generalize ended : action here = result at begins
  generalize endedToo : other there = result' at begins
  cases begins with
  | ok equal afterHere afterThere =>
      rw [bind_of_ok ended, bind_of_ok endedToo]
      exact second _ _ equal chain _ _ afterHere afterThere
  | error afterHere afterThere =>
      rw [bind_of_error ended, bind_of_error endedToo]
      exact .error afterHere afterThere

theorem observes_look {next next' : Machine → Eval α}
    (onward : ∀ here there : Machine, here.scopes = there.scopes →
      Observes same (next here) (next' there)) :
    Observes same (get >>= next) (get >>= next') :=
  fun chain here there hereSame thereSame =>
    onward here there (hereSame.trans thereSame.symm) chain here there hereSame thereSame

theorem observes_write (writer : Option Writer) (bytes : Text) :
    Observes Eq (Machine.write writer bytes) (Machine.write writer bytes) := by
  unfold Machine.write
  split
  · split
    · exact observes_pure rfl
    · exact fun _ _ _ here there => .ok rfl here there
  · exact observes_pure rfl

theorem Observes.seq {final : β → β → Prop} {next next' : α → Eval β}
    (first : Observes Eq action other)
    (second : ∀ value, Observes final (next value) (next' value)) :
    Observes final (action >>= next) (other >>= next') := by
  refine first.bind fun value another equal => ?_
  subst equal
  exact second value

theorem observes_report (error : RuntimeError) :
    Observes Eq (Machine.report options error) (Machine.report options error) := by
  refine Observes.seq (fun _ _ _ here there => .ok rfl here there) fun _ => ?_
  dsimp only
  split
  · exact (observes_throw _).seq fun _ => (observes_write _ _).seq fun _ => observes_pure rfl
  · exact (observes_write _ _).seq fun _ => observes_pure rfl

/-- What operations do observes nothing but their operands. -/
theorem observes_compositional (options : Options) :
    Compositional options fun {_} action => Observes Eq action action where
  pure _ := observes_pure rfl
  throw := observes_throw
  bind first second := first.seq second
  report := observes_report

theorem Observes.mono {same' : α → α → Prop} (observes : Observes same action other)
    (weaker : ∀ value another, same value another → same' value another) :
    Observes same' action other := by
  intro chain here there hereSame thereSame
  have ends := observes chain here there hereSame thereSame
  generalize action here = result at ends ⊢
  generalize other there = result' at ends ⊢
  cases ends with
  | ok equal afterHere afterThere => exact .ok (weaker _ _ equal) afterHere afterThere
  | error afterHere afterThere => exact .error afterHere afterThere

theorem observes_like {action : Eval Value} (observes : Observes Eq action action) :
    Observes Value.Like action action :=
  observes.mono fun _ _ => congrArg Value.deep

theorem observes_fail (fault : Fault) (pos : Pos) :
    Observes Value.Like (Machine.fail options fault pos) (Machine.fail options fault pos) :=
  observes_like (observes_report _)

theorem observes_kindOf {value another : Value} (like : value.Like another) :
    Observes Eq (Machine.kindOf value) (Machine.kindOf another) := by
  rw [← kindOf_deep value, like, kindOf_deep]
  unfold Machine.kindOf
  split
  · exact observes_pure rfl
  · exact observes_throw _

theorem observes_copy {value another : Value} (like : value.Like another) :
    Observes Value.Like (Machine.copy value) (Machine.copy another) := by
  intro chain here there hereSame thereSame
  refine .ok ?_ hereSame thereSame
  rw [Value.Like, Value.deep_copy, Value.deep_copy, like]

theorem observes_newArray {values others : List Value} (like : Value.LikeAll values others) :
    Observes Value.Like (Machine.newArray values) (Machine.newArray others) :=
  fun _ _ _ hereSame thereSame => .ok (congrArg (Value.arr 0) like) hereSame thereSame

theorem observes_flushing (writer : Option Writer) {action other : Eval Value}
    (observes : Observes Value.Like action other) :
    Observes Value.Like (Machine.flushing writer action) (Machine.flushing writer other) := by
  intro chain here there hereSame thereSame
  have ends := observes chain here there hereSame thereSame
  rw [flushing_eq_changing, flushing_eq_changing]
  generalize action here = result at ends ⊢
  generalize other there = result' at ends ⊢
  cases ends with
  | ok like afterHere afterThere =>
      exact .ok like ((Machine.flushed_scopes _ _).trans afterHere)
        ((Machine.flushed_scopes _ _).trans afterThere)
  | error afterHere afterThere =>
      exact .error ((Machine.flushed_scopes _ _).trans afterHere)
        ((Machine.flushed_scopes _ _).trans afterThere)

end Observes

section Parts

variable (options : Options)

theorem Value.LikeAll.length_eq {values others : List Value} (like : LikeAll values others) :
    values.length = others.length := by
  have lengths := congrArg List.length like
  rwa [deepAll_eq_map, deepAll_eq_map, List.length_map, List.length_map] at lengths

theorem Value.LikeAll.getElem? {values others : List Value} (like : LikeAll values others)
    (index : Nat) : (values[index]?.getD .nothing).Like (others[index]?.getD .nothing) := by
  have picked (values : List Value) :
      (values[index]?.getD .nothing).deep = (deepAll values)[index]?.getD .nothing := by
    rw [deepAll_eq_map, List.getElem?_map]
    cases values[index]? <;> rfl
  rw [Like, picked, picked, like]

theorem Value.Like.cases {value another : Value} (like : value.Like another) :
    (∃ stamp elements stamp' others, value = .arr stamp elements ∧ another = .arr stamp' others ∧
      LikeAll elements others) ∨
    (∀ stamp elements, value ≠ .arr stamp elements) ∧ another = value := by
  unfold Like at like
  cases value with
  | arr stamp elements =>
      cases another with
      | arr stamp' others =>
          refine .inl ⟨stamp, elements, stamp', others, rfl, rfl, ?_⟩
          exact (Value.arr.inj like).2
      | _ => cases like
  | _ =>
      right
      constructor
      · intro stamp elements same
        cases same
      · cases another <;> cases like
        rfl

theorem observes_readVariable (name : Text) (pos : Pos) :
    Observes Value.Like (readVariable options name pos) (readVariable options name pos) := by
  refine observes_look fun here there same => ?_
  rw [same]
  split
  · exact observes_copy rfl
  · exact observes_fail _ _

theorem observes_checkIndex {elements others : List Value} {index index' : Value} (pos : Pos)
    (like : Value.LikeAll elements others) (likeIndex : index.Like index') :
    Observes Eq (checkIndex elements pos index) (checkIndex others pos index') := by
  rw [← checkIndex_deep elements, like, likeIndex, checkIndex_deep]
  unfold checkIndex
  split
  · split <;> exact observes_pure rfl
  · exact (observes_kindOf rfl).seq fun _ => observes_pure rfl

variable {array array' index index' : Eval Value}

theorem observes_readElement (pos : Pos) (first : Observes Value.Like array array')
    (second : Observes Value.Like index index') :
    Observes Value.Like (readElement options pos array index)
      (readElement options pos array' index') := by
  refine first.bind fun value another like => ?_
  rcases like.cases with ⟨stamp, elements, stamp', others, rfl, rfl, each⟩ | ⟨unlike, rfl⟩
  · refine second.bind fun position position' likePosition => ?_
    refine (observes_checkIndex pos each likePosition).seq fun checked => ?_
    split
    · exact observes_like (observes_report _)
    · exact observes_copy (each.getElem? _)
  · split
    · next stamp elements => exact absurd rfl (unlike stamp elements)
    · exact (observes_kindOf rfl).seq fun _ => observes_fail _ _

theorem observes_lengthOf (pos : Pos) (observes : Observes Value.Like array array') :
    Observes Value.Like (lengthOf options pos array) (lengthOf options pos array') := by
  refine observes.bind fun value another like => ?_
  rcases like.cases with ⟨stamp, elements, stamp', others, rfl, rfl, each⟩ | ⟨unlike, rfl⟩
  · dsimp only
    rw [each.length_eq]
    exact observes_pure rfl
  · split
    · exact observes_pure rfl
    · exact (observes_kindOf rfl).seq fun _ => observes_fail _ _

end Parts

theorem Expr.free_of_parts {expr inner : Expr} (free : expr.targets = [])
    (subset : inner.parts ⊆ expr.parts) : inner.targets = [] := by
  rw [List.eq_nil_iff_forall_not_mem]
  intro target member
  have within : target ∈ expr.targets := List.filterMap_subset _ subset member
  rw [free] at within
  cases within

mutual

theorem evaluate_observes (options : Options) {expr : Expr} (free : expr.targets = []) :
    Observes Value.Like (evaluate options expr) (evaluate options expr) := by
  cases expr with
  | absent =>
      rw [evaluate]
      exact observes_throw _
  | int digits pos =>
      rw [evaluate]
      split
      · exact observes_pure rfl
      · exact observes_fail _ _
  | float digits pos =>
      rw [evaluate]
      split
      · exact observes_pure rfl
      · exact observes_fail _ _
  | str value pos =>
      rw [evaluate]
      exact observes_pure rfl
  | name own pos =>
      rw [evaluate]
      exact observes_readVariable options own pos
  | array elements pos =>
      have each (element : Expr) (member : element ∈ elements) : element.targets = [] :=
        Expr.free_of_parts free
          (List.Subset.trans (parts_subset_partsAll member) (Expr.parts_array elements pos))
      rw [evaluate]
      exact (collect_observes options each).bind fun _ _ => observes_newArray
  | unary op operand pos =>
      rw [evaluate]
      refine (evaluate_observes options
        (Expr.free_of_parts free (Expr.parts_unary op operand pos))).bind
          fun value another like => ?_
      rw [← unary_deep options op value, like, unary_deep]
      exact observes_like ((observes_compositional options).unary op another pos)
  | binary op left right pos =>
      have differs : op ≠ .assign := by
        rintro rfl
        cases free
      rw [evaluate_binary options differs]
      refine (evaluate_observes options
        (Expr.free_of_parts free (Expr.parts_left op left right pos))).bind fun _ first like => ?_
      refine (evaluate_observes options
        (Expr.free_of_parts free (Expr.parts_right op left right pos))).bind
          fun _ second likeSecond => ?_
      rw [← binary_deep options op, like, likeSecond, binary_deep]
      exact observes_like ((observes_compositional options).binary op first second pos)
  | index base position pos =>
      rw [evaluate]
      exact observes_readElement options pos
        (evaluate_observes options (Expr.free_of_parts free (Expr.parts_base base position pos)))
        (evaluate_observes options
          (Expr.free_of_parts free (Expr.parts_position base position pos)))
  | call callee arguments pos =>
      by_cases named : ∃ name namePos, callee = .name name namePos
      · obtain ⟨name, namePos, rfl⟩ := named
        exact call_observes options free
      · rw [evaluate_call_other options fun name namePos same => named ⟨name, namePos, same⟩]
        exact observes_fail _ _

theorem call_observes (options : Options) {name : Text} {namePos : Pos} {arguments : List Expr}
    {pos : Pos} (free : (Expr.call (.name name namePos) arguments pos).targets = []) :
    Observes Value.Like (evaluate options (.call (.name name namePos) arguments pos))
      (evaluate options (.call (.name name namePos) arguments pos)) := by
  have each (argument : Expr) (member : argument ∈ arguments) : argument.targets = [] :=
    Expr.free_of_parts free
      (List.Subset.trans (parts_subset_partsAll member) (Expr.parts_arguments _ arguments pos))
  have unchanged {target : Expr} {others : List Expr} (same : arguments = target :: others) :
      ¬(name = Builtin.push.name ∨ name = Builtin.pop.name) := by
    intro changes
    have within : target ∈ (Expr.call (.name name namePos) arguments pos).targets :=
      Expr.mem_targets.mpr ⟨_, Expr.self_mem_parts _, by rw [same]; exact if_pos changes⟩
    rw [free] at within
    cases within
  rw [evaluate_call]
  cases found : Builtin.ofName? name with
  | none => exact observes_fail _ _
  | some builtin =>
      have own := Builtin.name_of_ofName? found
      cases builtin with
      | printf =>
          match arguments with
          | [] => exact observes_fail _ _
          | format :: others =>
              rw [List.forall_mem_cons] at each
              refine (evaluate_observes options each.1).bind fun value another like => ?_
              rcases like.cases with ⟨_, _, _, _, rfl, rfl, _⟩ | ⟨_, rfl⟩
              · exact (observes_kindOf like).seq fun _ => observes_fail _ _
              · split
                · exact observes_flushing _ (fill_observes options pos [] _ each.2)
                · exact (observes_kindOf rfl).seq fun _ => observes_fail _ _
      | length =>
          match arguments with
          | [] => exact observes_fail _ _
          | [array] =>
              exact observes_lengthOf options pos (evaluate_observes options (each array (by simp)))
          | _ :: _ :: _ => exact observes_fail _ _
      | push =>
          match arguments with
          | [] => exact observes_fail _ _
          | target :: others => exact absurd (.inl own.symm) (unchanged rfl)
      | pop =>
          match arguments with
          | [] => exact observes_fail _ _
          | target :: others => exact absurd (.inr own.symm) (unchanged rfl)

theorem collect_observes (options : Options) {exprs : List Expr}
    (free : ∀ expr ∈ exprs, expr.targets = []) :
    Observes Value.LikeAll (collect (evaluateEach options exprs))
      (collect (evaluateEach options exprs)) := by
  cases exprs with
  | nil => exact observes_pure rfl
  | cons first rest =>
      rw [List.forall_mem_cons] at free
      exact (evaluate_observes options free.1).bind fun value another like =>
        (collect_observes options free.2).bind fun values others each =>
          observes_pure (by rw [Value.LikeAll, Value.deepAll, Value.deepAll, like, each])

theorem fill_observes (options : Options) (pos : Pos) (pending : Text) (template : Template)
    {exprs : List Expr} (free : ∀ expr ∈ exprs, expr.targets = []) :
    Observes Value.Like
      (Printf.fill options pos pending template (evaluateEach options exprs))
      (Printf.fill options pos pending template (evaluateEach options exprs)) := by
  cases template with
  | finish before => exact (observes_write _ _).seq fun _ => observes_pure rfl
  | malformed before fault => exact (observes_write _ _).seq fun _ => observes_fail _ _
  | hole before rest =>
      cases exprs with
      | nil => exact (observes_write _ _).seq fun _ => observes_fail _ _
      | cons first others =>
          rw [List.forall_mem_cons] at free
          refine (observes_write _ _).seq fun _ => ?_
          refine (evaluate_observes options free.1).bind fun value another like => ?_
          rw [← Value.printed_deep value, like, Value.printed_deep]
          exact fill_observes options pos another.printed rest free.2

end

/-- Over the variables, the expression comes to the deep value, and it leaves the variables as they
are. -/
def Expr.ComesTo (options : Options) (chain : Chain Value) (expr : Expr) (value : Value) : Prop :=
  ∀ machine : Machine, machine.scopes = chain → ∃ outcome after,
    evaluate options expr machine = .ok outcome after ∧ outcome.deep = value ∧ after.scopes = chain

theorem comesTo_of_ok {options : Options} {expr : Expr} (free : expr.targets = [])
    {machine after : Machine} {value : Value}
    (evaluated : evaluate options expr machine = .ok value after) :
    expr.ComesTo options machine.scopes value.deep := by
  intro other same
  have ends := evaluate_observes options free machine.scopes machine other rfl same
  rw [evaluated] at ends
  generalize ended : evaluate options expr other = result at ends
  cases ends with
  | ok like _ afterThere => exact ⟨_, _, rfl, like.symm, afterThere⟩

/-- An expression without targets, and the deep value that it comes to in a machine. -/
structure Expr.Yields (options : Options) (machine : Machine) (expr : Expr) (value : Value) :
    Prop where
  free : expr.targets = []
  evaluated : ∃ outcome after, evaluate options expr machine = .ok outcome after ∧
    outcome.deep = value

theorem Expr.Yields.comesTo {options : Options} {machine : Machine} {expr : Expr} {value : Value}
    (yields : expr.Yields options machine value) : expr.ComesTo options machine.scopes value := by
  obtain ⟨free, outcome, after, evaluated, rfl⟩ := yields
  exact comesTo_of_ok free evaluated

theorem collect_comesTo {options : Options} {chain : Chain Value} {exprs : List Expr}
    {values : List Value} (each : List.Forall₂ (Expr.ComesTo options chain) exprs values)
    {machine : Machine} (same : machine.scopes = chain) :
    ∃ outcomes after, collect (evaluateEach options exprs) machine = .ok outcomes after ∧
      Value.deepAll outcomes = values ∧ after.scopes = chain := by
  induction each generalizing machine with
  | nil => exact ⟨[], machine, rfl, rfl, same⟩
  | cons comes _ ih =>
      obtain ⟨outcome, between, evaluated, deep, scopes⟩ := comes machine same
      obtain ⟨outcomes, after, collected, deepRest, scopesAfter⟩ := ih scopes
      refine ⟨outcome :: outcomes, after, ?_, ?_, scopesAfter⟩
      · rw [evaluateEach, collect, bind_of_ok evaluated, bind_of_ok collected]
        rfl
      · rw [Value.deepAll, deep, deepRest]

end Rover
