import Rover.Proofs.Relocation

namespace Rover

variable {twins : Twins} {options : Options}

section Operations

variable (apart : options.Apart twins.label) (pos : Pos)
include apart

theorem mirrors_unary (op : UnaryOp) (operand : Value) :
    Mirrors twins (Operation.unary options op operand pos)
      (Operation.unary options op operand (pos.move twins.lines)) Eq := by
  unfold Operation.unary
  split
  · exact mirrors_pure rfl
  · exact mirrors_pure rfl
  · exact mirrors_pure rfl
  · exact mirrors_pure rfl
  · exact mirrors_throw (unsupported_ne_error _)
  · exact (mirrors_kindOf _).seq fun _ => mirrors_fail apart _ _

theorem mirrors_mismatch (op : BinaryOp) (left right : Value) :
    Mirrors twins (Operation.mismatch options op left right pos)
      (Operation.mismatch options op left right (pos.move twins.lines)) Eq :=
  (mirrors_kindOf left).seq fun _ => (mirrors_kindOf right).seq fun _ => mirrors_fail apart _ _

theorem mirrors_arithmetic (op : BinaryOp) (left right : Value) :
    Mirrors twins (Operation.arithmetic options op left right pos)
      (Operation.arithmetic options op left right (pos.move twins.lines)) Eq := by
  unfold Operation.arithmetic
  split
  · split
    · exact mirrors_pure rfl
    · exact mirrors_pure rfl
    · exact mirrors_pure rfl
    · split
      · exact mirrors_fail apart _ _
      · exact mirrors_pure rfl
  · split <;> exact mirrors_pure rfl
  · exact mirrors_mismatch apart _ _ _ _

theorem mirrors_comparison (op : BinaryOp) (left right : Value) :
    Mirrors twins (Operation.comparison options op left right pos)
      (Operation.comparison options op left right (pos.move twins.lines)) Eq := by
  unfold Operation.comparison
  split
  · exact mirrors_pure rfl
  · dsimp only
    split <;> split <;> exact mirrors_pure rfl
  · exact mirrors_mismatch apart _ _ _ _

theorem mirrors_binary (op : BinaryOp) (left right : Value) :
    Mirrors twins (Operation.binary options op left right pos)
      (Operation.binary options op left right (pos.move twins.lines)) Eq := by
  unfold Operation.binary
  cases op with
  | and | or => exact mirrors_pure rfl
  | add | subtract | multiply | divide => exact mirrors_arithmetic apart _ _ _ _
  | equal | notEqual | less | lessEqual | greater | greaterEqual =>
      exact mirrors_comparison apart _ _ _ _
  | assign | other _ => exact mirrors_throw (unsupported_ne_error _)

theorem mirrors_readVariable (name : Text) :
    Mirrors twins (readVariable options name pos)
      (readVariable options name (pos.move twins.lines)) Eq := by
  refine mirrors_get.bind fun here there level => ?_
  rw [level.scopes]
  split
  · exact mirrors_copy _
  · exact mirrors_fail apart _ _

end Operations

section Targets

variable {action mirror : Eval Value} {target mirrorTarget : Eval Located} (pos : Pos)

abbrev Lowered {α : Type} (lines : Int) (found lower : Except RuntimeError α) : Prop :=
  lower = moved lines found

theorem Mirrors.seqFound {α β γ : Type} {found lower : Eval (Except RuntimeError α)}
    {next : Except RuntimeError α → Eval β} {next' : Except RuntimeError α → Eval γ}
    {final : β → γ → Prop} (first : Mirrors twins found lower (Lowered twins.lines))
    (second : ∀ result, Mirrors twins (next result) (next' (moved twins.lines result)) final) :
    Mirrors twins (found >>= next) (lower >>= next') final := by
  refine first.bind fun result lower same => ?_
  subst same
  exact second result

theorem mirrors_checkIndex (elements : List Value) (index : Value) :
    Mirrors twins (checkIndex elements pos index)
      (checkIndex elements (pos.move twins.lines) index) (Lowered twins.lines) := by
  unfold checkIndex
  split
  · split <;> exact mirrors_pure rfl
  · exact (mirrors_kindOf _).seq fun _ => mirrors_pure rfl

theorem mirrors_named (name : Text) :
    Mirrors twins (Target.named name pos) (Target.named name (pos.move twins.lines))
      (Lowered twins.lines) := by
  refine mirrors_get.bind fun here there level => ?_
  rw [level.scopes]
  split <;> exact mirrors_pure rfl

theorem mirrors_slot (located : Mirrors twins target mirrorTarget (Lowered twins.lines))
    (evaluated : Mirrors twins action mirror Eq) :
    Mirrors twins (Target.slot pos target action)
      (Target.slot (pos.move twins.lines) mirrorTarget mirror) (Lowered twins.lines) := by
  refine located.seqFound fun found => ?_
  cases found with
  | error error => exact mirrors_pure rfl
  | ok base =>
      refine evaluated.seq fun position => (mirrors_load base).seq fun value => ?_
      split
      · refine (mirrors_checkIndex pos _ _).seqFound fun checked => ?_
        cases checked <;> exact mirrors_pure rfl
      · exact (mirrors_kindOf _).seq fun _ => mirrors_pure rfl

theorem mirrors_array (builtin : Builtin)
    (located : Mirrors twins target mirrorTarget (Lowered twins.lines)) :
    Mirrors twins (Target.array builtin pos target)
      (Target.array builtin (pos.move twins.lines) mirrorTarget) (Lowered twins.lines) := by
  refine located.seqFound fun found => ?_
  cases found with
  | error error =>
      dsimp only [moved, RuntimeError.move]
      split <;> exact mirrors_pure rfl
  | ok location =>
      refine (mirrors_load location).seq fun value => ?_
      split
      · split <;> exact mirrors_pure rfl
      · exact (mirrors_kindOf _).seq fun _ => mirrors_pure rfl

theorem mirrors_push (evaluated : Mirrors twins action mirror Eq)
    (located : Mirrors twins target mirrorTarget (Lowered twins.lines)) :
    Mirrors twins (Target.push pos target action)
      (Target.push (pos.move twins.lines) mirrorTarget mirror) (Lowered twins.lines) := by
  refine evaluated.seq fun value => (mirrors_array pos .push located).seqFound fun found => ?_
  cases found with
  | error error => exact mirrors_pure rfl
  | ok place =>
      exact (mirrors_copy value).seq fun copied => (mirrors_modifyArray _ _).seq fun _ =>
        mirrors_pure rfl

end Targets

section Parts

variable {action mirror second secondMirror : Eval Value} {target mirrorTarget : Eval Located}
  (apart : options.Apart twins.label) (pos : Pos)
include apart

theorem mirrors_assign (evaluated : Mirrors twins action mirror Eq)
    (located : Mirrors twins target mirrorTarget (Lowered twins.lines)) :
    Mirrors twins (assign options pos target action)
      (assign options (pos.move twins.lines) mirrorTarget mirror) Eq := by
  refine evaluated.seq fun value => located.seqFound fun found => ?_
  cases found with
  | error error => exact mirrors_report apart error
  | ok location =>
      dsimp only [moved]
      split
      · exact mirrors_fail apart _ _
      · refine (mirrors_store location value).seq fun stored => ?_
        split
        · exact mirrors_pure rfl
        · exact mirrors_fail apart _ _

theorem mirrors_readElement (evaluated : Mirrors twins action mirror Eq)
    (indexed : Mirrors twins second secondMirror Eq) :
    Mirrors twins (readElement options pos action second)
      (readElement options (pos.move twins.lines) mirror secondMirror) Eq := by
  refine evaluated.seq fun value => ?_
  split
  · refine indexed.seq fun index => (mirrors_checkIndex pos _ _).seqFound fun checked => ?_
    cases checked with
    | error error => exact mirrors_report apart error
    | ok position => exact mirrors_copy _
  · exact (mirrors_kindOf _).seq fun _ => mirrors_fail apart _ _

theorem mirrors_lengthOf (evaluated : Mirrors twins action mirror Eq) :
    Mirrors twins (lengthOf options pos action)
      (lengthOf options (pos.move twins.lines) mirror) Eq := by
  refine evaluated.seq fun value => ?_
  split
  · exact mirrors_pure rfl
  · exact (mirrors_kindOf _).seq fun _ => mirrors_fail apart _ _

theorem mirrors_pushTo (evaluated : Mirrors twins action mirror Eq)
    (located : Mirrors twins target mirrorTarget (Lowered twins.lines)) :
    Mirrors twins (pushTo options pos target action)
      (pushTo options (pos.move twins.lines) mirrorTarget mirror) Eq := by
  refine (mirrors_push pos evaluated located).seqFound fun found => ?_
  cases found with
  | error error => exact mirrors_report apart error
  | ok location => exact (mirrors_load location).seq fun value => mirrors_copy value

theorem mirrors_popFrom (located : Mirrors twins target mirrorTarget (Lowered twins.lines)) :
    Mirrors twins (popFrom options pos target)
      (popFrom options (pos.move twins.lines) mirrorTarget) Eq := by
  refine (mirrors_array pos .pop located).seqFound fun found => ?_
  cases found with
  | error error => exact mirrors_report apart error
  | ok place =>
      refine mirrors_get.bind fun here there level => ?_
      rw [level.array?]
      split
      · exact mirrors_pure rfl
      · exact (mirrors_orphan _).seq fun _ => (mirrors_modifyArray _ _).seq fun _ =>
          mirrors_pure rfl

end Parts

mutual

theorem evaluate_moved (apart : options.Apart twins.label) {expr : Expr} (spelled : expr.Spelled) :
    Mirrors twins (evaluate options expr) (evaluate options (expr.move twins.lines)) Eq := by
  cases expr with
  | absent => exact spelled.elim
  | int digits pos =>
      rw [Expr.move, evaluate, evaluate]
      split
      · exact mirrors_pure rfl
      · exact mirrors_fail apart _ _
  | float digits pos =>
      rw [Expr.move, evaluate, evaluate]
      split
      · exact mirrors_pure rfl
      · exact mirrors_fail apart _ _
  | str value pos =>
      rw [Expr.move, evaluate, evaluate]
      exact mirrors_pure rfl
  | name own pos => exact mirrors_readVariable apart pos own
  | array elements pos =>
      exact (collect_moved apart spelled).seq fun values => mirrors_newArray values
  | unary op operand pos =>
      exact (evaluate_moved apart spelled.2).seq fun value => mirrors_unary apart pos op value
  | binary op left right pos =>
      by_cases assigns : op = .assign
      · subst assigns
        exact mirrors_assign apart pos (evaluate_moved apart spelled.2.2)
          (locate_moved apart spelled.2.1)
      · rw [Expr.move, evaluate_binary _ assigns, evaluate_binary _ assigns]
        exact (evaluate_moved apart spelled.2.1).seq fun first =>
          (evaluate_moved apart spelled.2.2).seq fun second =>
            mirrors_binary apart pos op first second
  | index array position pos =>
      exact mirrors_readElement apart pos (evaluate_moved apart spelled.1)
        (evaluate_moved apart spelled.2)
  | call callee arguments pos =>
      by_cases named : ∃ name namePos, callee = .name name namePos
      · obtain ⟨callee, calleePos, rfl⟩ := named
        exact call_moved apart callee calleePos spelled.2 pos
      · have unnamed : ∀ name namePos, callee ≠ .name name namePos :=
          fun name namePos same => named ⟨name, namePos, same⟩
        rw [Expr.move, evaluate_call_other _ unnamed,
          evaluate_call_other _ (Expr.move_unnamed unnamed twins.lines)]
        exact mirrors_fail apart _ _

theorem call_moved (apart : options.Apart twins.label) (callee : Text) (calleePos : Pos)
    {arguments : List Expr} (spelled : Expr.SpelledAll arguments) (pos : Pos) :
    Mirrors twins (evaluate options (.call (.name callee calleePos) arguments pos))
      (evaluate options ((Expr.call (.name callee calleePos) arguments pos).move twins.lines))
      Eq := by
  rw [Expr.move, Expr.move, evaluate_call, evaluate_call]
  cases Builtin.ofName? callee with
  | none => exact mirrors_fail apart _ _
  | some builtin =>
      cases builtin with
      | printf =>
          cases arguments with
          | nil => exact mirrors_fail apart _ _
          | cons format others =>
              refine (evaluate_moved apart spelled.1).seq fun value => ?_
              split
              · exact (fill_moved apart pos [] _ spelled.2).flushing options.output
              · exact (mirrors_kindOf _).seq fun _ => mirrors_fail apart _ _
      | length =>
          match arguments with
          | [] => exact mirrors_fail apart _ _
          | [array] => exact mirrors_lengthOf apart pos (evaluate_moved apart spelled.1)
          | _ :: _ :: _ =>
              simp only [Expr.moveAll, List.length_cons, Expr.length_moveAll]
              exact mirrors_fail apart _ _
      | push =>
          match arguments with
          | [] => exact mirrors_fail apart _ _
          | [_] => exact mirrors_fail apart _ _
          | [target, value] =>
              exact mirrors_pushTo apart pos (evaluate_moved apart spelled.2.1)
                (locate_moved apart spelled.1)
          | _ :: _ :: _ :: _ =>
              simp only [Expr.moveAll, List.length_cons, Expr.length_moveAll]
              exact mirrors_fail apart _ _
      | pop =>
          match arguments with
          | [] => exact mirrors_fail apart _ _
          | [target] => exact mirrors_popFrom apart pos (locate_moved apart spelled.1)
          | _ :: _ :: _ =>
              simp only [Expr.moveAll, List.length_cons, Expr.length_moveAll]
              exact mirrors_fail apart _ _

theorem collect_moved (apart : options.Apart twins.label) {exprs : List Expr}
    (spelled : Expr.SpelledAll exprs) :
    Mirrors twins (collect (evaluateEach options exprs))
      (collect (evaluateEach options (Expr.moveAll twins.lines exprs))) Eq := by
  cases exprs with
  | nil => exact mirrors_pure rfl
  | cons first rest =>
      exact (evaluate_moved apart spelled.1).seq fun value =>
        (collect_moved apart spelled.2).seq fun values => mirrors_pure rfl

theorem fill_moved (apart : options.Apart twins.label) (pos : Pos) (pending : Text)
    (template : Template) {exprs : List Expr} (spelled : Expr.SpelledAll exprs) :
    Mirrors twins (Printf.fill options pos pending template (evaluateEach options exprs))
      (Printf.fill options (pos.move twins.lines) pending template
        (evaluateEach options (Expr.moveAll twins.lines exprs))) Eq := by
  cases template with
  | finish before =>
      rw [Printf.fill, Printf.fill]
      exact (mirrors_write options.output (pending ++ before)).seq fun _ => mirrors_pure rfl
  | malformed before fault =>
      rw [Printf.fill, Printf.fill]
      exact (mirrors_write options.output (pending ++ before)).seq fun _ => mirrors_fail apart _ _
  | hole before rest =>
      cases exprs with
      | nil =>
          exact (mirrors_write options.output (pending ++ before)).seq fun _ =>
            mirrors_fail apart _ _
      | cons first others =>
          exact (mirrors_write options.output (pending ++ before)).seq fun _ =>
            (evaluate_moved apart spelled.1).seq fun value =>
              fill_moved apart pos value.printed rest spelled.2

theorem locate_moved (apart : options.Apart twins.label) {expr : Expr} (spelled : expr.Spelled) :
    Mirrors twins (locate options expr) (locate options (expr.move twins.lines))
      (Lowered twins.lines) := by
  cases expr with
  | absent => exact spelled.elim
  | name own pos => exact mirrors_named pos own
  | index array position pos =>
      exact mirrors_slot pos (locate_moved apart spelled.1) (evaluate_moved apart spelled.2)
  | call callee arguments pos =>
      by_cases named : ∃ name namePos, callee = .name name namePos
      · obtain ⟨callee, calleePos, rfl⟩ := named
        rw [Expr.move, Expr.move, locate_call, locate_call]
        split
        · match arguments with
          | [] => exact mirrors_pure rfl
          | [_] => exact mirrors_pure rfl
          | [target, value] =>
              exact mirrors_push pos (evaluate_moved apart spelled.2.2.1)
                (locate_moved apart spelled.2.1)
          | _ :: _ :: _ :: _ =>
              simp only [Expr.moveAll, List.length_cons, Expr.length_moveAll]
              exact mirrors_pure rfl
        · exact mirrors_pure rfl
      · have unnamed : ∀ name namePos, callee ≠ .name name namePos :=
          fun name namePos same => named ⟨name, namePos, same⟩
        rw [Expr.move, locate_call_other _ unnamed,
          locate_call_other _ (Expr.move_unnamed unnamed twins.lines)]
        exact mirrors_pure rfl
  | _ => exact mirrors_pure rfl

end

end Rover
