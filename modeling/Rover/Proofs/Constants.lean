import Rover.Proofs.Timeline.Ownership

/-!
Constants are read-only in full. From its definition on, a constant keeps its flag and its value,
with all the elements in it, for as long as its scope is there and its name is not defined again in
it.
-/

namespace Rover

namespace Course

variable {machine final : Machine} {moments : List Moment}

theorem follows (course : Course machine moments final) {index : Nat} {first second : Moment}
    (before : moments[index]? = some first) (after : moments[index + 1]? = some second) :
    second.Follows first.machine := by
  induction course generalizing index with
  | nil => cases before
  | cons _ rest ih =>
      cases index with
      | succ index => exact ih before after
      | zero =>
          cases before
          cases rest with
          | nil => cases after
          | cons follows _ =>
              cases after
              exact follows

theorem getElem?_before {index : Nat} {last : Moment} (found : moments[index + 1]? = some last) :
    ∃ earlier, moments[index]? = some earlier := by
  have inside := (List.getElem?_eq_some_iff.mp found).1
  exact ⟨moments[index], List.getElem?_eq_getElem (Nat.lt_of_succ_lt inside)⟩

end Course

/-- A constant that is bound at one moment is bound to the same value at a later one, unless it ends
in between. -/
theorem constant_kept (jobs : List Job) {machine : Machine} (sound : machine.Sound)
    (single : machine.scopes.length = 1) {start stop : Nat} {first last : Moment}
    (created : (timeline jobs machine)[start]? = some first)
    (passed : (timeline jobs machine)[stop]? = some last) (le : start ≤ stop) {depth : Nat}
    {name : Text} {binding : Binding Value} (constant : binding.constant = true)
    (bound : first.machine.scopes.binding? depth name = some binding)
    (lives : ∀ index moment, start < index → index ≤ stop →
      (timeline jobs machine)[index]? = some moment → ¬moment.Ends depth name) :
    last.machine.scopes.binding? depth name = some binding := by
  obtain ⟨final, course⟩ := timeline_course jobs sound single
  induction le generalizing last with
  | refl =>
      rw [created] at passed
      cases passed
      exact bound
  | @step stop le ih =>
      obtain ⟨earlier, found⟩ := Course.getElem?_before passed
      have kept := ih found fun index moment after before =>
        lives index moment after (Nat.le_succ_of_le before)
      exact (course.follows found passed).constants depth name binding constant
        (lives _ last (Nat.lt_succ_of_le le) (Nat.le_refl _) passed) kept

/-- A constant array is bound to `a`, and `push` is tried on it. -/
def pushToConstant : Job :=
  ⟨⟨false, 0, none, none⟩, 1, ⟨[
    .define (text "a") .unknown (.array [.str (text "b") .unknown] .unknown) true .unknown,
    .eval (.call (.name (text "push") .unknown)
      [.name (text "a") .unknown, .str (text "c") .unknown] .unknown) .unknown], .unknown⟩⟩

theorem constant_kept_after_push :
    ∃ last, (timeline [pushToConstant] Machine.new)[7]? = some last ∧
      last.machine.errors.size = 1 ∧
        last.machine.scopes.binding? 0 (text "a") = some ⟨.arr 0 [.str (text "b")], true⟩ := by
  have created : (timeline [pushToConstant] Machine.new)[3]? = some _ := rfl
  have passed : (timeline [pushToConstant] Machine.new)[7]? = some _ := rfl
  refine ⟨_, passed, rfl, ?_⟩
  apply constant_kept [pushToConstant] Machine.new_sound rfl created passed (by decide) rfl rfl
  intro index moment after before found
  have either : index = 4 ∨ index = 5 ∨ index = 6 ∨ index = 7 := by omega
  rcases either with rfl | rfl | rfl | rfl <;> exact Option.some.inj found ▸ id

end Rover
