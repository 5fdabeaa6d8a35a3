import Rover.Proofs.Safety

namespace Rover

section Actions

variable (options : Options) (sought : Expr → Prop) (pops : Prop)

def Yields (action : Eval Value) (moments : Machine → List Moment) : Prop :=
  ∀ machine, machine.Sound → machine.Whole →
    Runs options sought pops machine action machine (moments machine)
      fun value after => after.Sound ∧ value.Whole

def Finds (action : Eval Located) (moments : Machine → List Moment) : Prop :=
  ∀ machine, machine.Sound → machine.Whole →
    Runs options sought pops machine action machine (moments machine)
      fun found after => after.Sound ∧ ∀ location, found = .ok location → location.Live after

end Actions

section Operations

variable {options : Options} {sought : Expr → Prop} {pops : Prop} {start machine : Machine}
  {left right : Value}

theorem runs_unary {op : UnaryOp} (lasts : start.Lasts pops machine)
    (known : op ∈ [UnaryOp.negate, .not]) (whole : left.Whole) (pos : Pos) :
    Runs options sought pops start (Operation.unary options op left pos) machine []
      fun value _ => value.Whole := by
  unfold Operation.unary
  split
  · exact runs_pure lasts trivial
  · exact runs_pure lasts trivial
  · exact runs_pure lasts trivial
  · exact runs_pure lasts trivial
  · simp at known
  · exact runs_misfit lasts whole _ pos

theorem runs_mismatch (lasts : start.Lasts pops machine) (op : BinaryOp) (first : left.Whole)
    (second : right.Whole) (pos : Pos) :
    Runs options sought pops start (Operation.mismatch options op left right pos) machine []
      fun value _ => value.Whole :=
  (runs_kindOf lasts first).seq fun _ _ _ lasts _ => runs_misfit lasts second _ pos

theorem runs_arithmetic (lasts : start.Lasts pops machine) (op : BinaryOp) (first : left.Whole)
    (second : right.Whole) (pos : Pos) :
    Runs options sought pops start (Operation.arithmetic options op left right pos) machine []
      fun value _ => value.Whole := by
  unfold Operation.arithmetic
  split
  · split
    · exact runs_pure lasts trivial
    · exact runs_pure lasts trivial
    · exact runs_pure lasts trivial
    · split
      · exact runs_fail lasts _ pos
      · exact runs_pure lasts trivial
  · split <;> exact runs_pure lasts trivial
  · exact runs_mismatch lasts op first second pos

theorem runs_comparison (lasts : start.Lasts pops machine) (op : BinaryOp) (first : left.Whole)
    (second : right.Whole) (pos : Pos) :
    Runs options sought pops start (Operation.comparison options op left right pos) machine []
      fun value _ => value.Whole := by
  unfold Operation.comparison
  split
  · exact runs_pure lasts trivial
  · dsimp only
    split <;> split <;> exact runs_pure lasts trivial
  · exact runs_mismatch lasts op first second pos

theorem runs_binary {op : BinaryOp} (lasts : start.Lasts pops machine)
    (known : op ∈ BinaryOp.known) (differs : op ≠ .assign) (first : left.Whole)
    (second : right.Whole) (pos : Pos) :
    Runs options sought pops start (Operation.binary options op left right pos) machine []
      fun value _ => value.Whole := by
  unfold Operation.binary
  cases op with
  | and | or => exact runs_pure lasts trivial
  | add | subtract | multiply | divide => exact runs_arithmetic lasts _ first second pos
  | equal | notEqual | less | lessEqual | greater | greaterEqual =>
      exact runs_comparison lasts _ first second pos
  | assign => exact absurd rfl differs
  | other name => simp [BinaryOp.known] at known

theorem runs_readVariable (lasts : start.Lasts pops machine) (name : Text) (pos : Pos) :
    Runs options sought pops start (readVariable options name pos) machine []
      fun value _ => value.Whole := by
  unfold Runs readVariable
  rw [leads_bind, leads_get]
  split
  · next binding found => exact runs_copy lasts (lasts.whole.binding found)
  · exact runs_fail lasts _ pos

end Operations

section Parts

variable {options : Options} {sought : Expr → Prop} {pops : Prop}
  {moments others : Machine → List Moment} {value index : Eval Value} {target : Eval Located}
  {machine : Machine}

theorem runs_array (builtin : Builtin) (pos : Pos)
    (located : Finds options sought pops target moments) (sound : machine.Sound)
    (whole : machine.Whole) :
    Runs options sought pops machine (Target.array builtin pos target) machine (moments machine)
      fun found after => after.Sound ∧ ∀ location stamp, found = .ok (location, stamp) →
        location.Live after ∧ ∃ elements, after.array? stamp = some elements := by
  apply (located machine sound whole).seq
  rintro found after - lasts ⟨sound, live⟩
  split
  · split <;> exact runs_pure lasts ⟨sound, nofun⟩
  · next location =>
      have alive := live location rfl
      apply (runs_load lasts sound alive).seq
      rintro loaded _ - lasts ⟨rfl, wholeLoaded, stored⟩
      split
      · next stamp elements =>
          split
          · exact runs_pure lasts ⟨sound, nofun⟩
          · refine runs_pure lasts ⟨sound, ?_⟩
            rintro _ _ ⟨⟩
            exact ⟨alive, elements, stored stamp elements rfl⟩
      · exact (runs_kindOf lasts wholeLoaded).seq fun _ _ _ lasts same =>
          runs_pure lasts ⟨same ▸ sound, nofun⟩

theorem runs_push (pos : Pos) (evaluated : Yields options sought pops value moments)
    (located : Finds options sought pops target others) (sound : machine.Sound)
    (whole : machine.Whole) :
    Runs options sought pops machine (Target.push pos target value) machine
      (moments machine ++ onward value (fun _ => others) machine)
      fun found after => ∀ location, found = .ok location → location.Live after := by
  apply (evaluated machine sound whole).bind
  rintro pushed middle - lasts ⟨sound, wholePushed⟩
  apply ((runs_array .push pos located sound lasts.whole).since lasts id).seq
  rintro found after - lasts ⟨sound, live⟩
  split
  · exact runs_pure lasts nofun
  · next location stamp =>
      obtain ⟨alive, elements, stored⟩ := live location stamp rfl
      have copied := wholePushed.copy after.next
      have appended (pops : Prop) := @Machine.lasts_modifyArray pops after sound lasts.whole stamp
        elements stored (· ++ [(pushed.copy after.next).1]) [] (pushed.copy after.next).2
        (fun wholeItems => by simp_all [Value.wholeAll_iff, or_imp, forall_and])
        (List.nil_subset _) (by simp) (by simp)
      refine ⟨lasts.trans (appended pops), ?_⟩
      rintro _ ⟨⟩
      exact alive.later (appended False) id

theorem runs_assign (pos : Pos) (evaluated : Yields options sought pops value moments)
    (located : Finds options sought pops target others) (sound : machine.Sound)
    (whole : machine.Whole) :
    Runs options sought pops machine (assign options pos target value) machine
      (moments machine ++ onward value (fun _ => others) machine)
      fun value _ => value.Whole := by
  apply (evaluated machine sound whole).bind
  rintro stored middle - lasts ⟨sound, wholeStored⟩
  apply ((located middle sound lasts.whole).since lasts id).seq
  rintro found after - lasts ⟨sound, live⟩
  split
  · exact runs_report lasts _
  · next location =>
      split
      · exact runs_fail lasts _ pos
      · apply (runs_store lasts sound (live location rfl) wholeStored).seq
        intro result last _ lasts _
        split
        · exact runs_pure lasts wholeStored
        · exact runs_fail lasts _ pos

theorem runs_readElement (pos : Pos) (first : Yields options sought pops value moments)
    (second : Yields options sought pops index others) (sound : machine.Sound)
    (whole : machine.Whole) :
    Runs options sought pops machine (readElement options pos value index) machine
      (moments machine ++ onward value (fun value after =>
        match value with
        | .arr _ _ => others after
        | _ => []) machine)
      fun value _ => value.Whole := by
  apply (first machine sound whole).bind
  rintro read middle - lasts ⟨sound, wholeRead⟩
  cases read with
  | arr stamp elements =>
      apply ((second middle sound lasts.whole).since lasts id).seq
      rintro position after - lasts ⟨_, wholePosition⟩
      apply (runs_checkIndex lasts wholePosition).seq
      rintro checked _ - lasts ⟨rfl, inside⟩
      split
      · exact runs_report lasts _
      · next found =>
          rw [List.getElem?_eq_getElem (inside found rfl)]
          exact runs_copy lasts (Value.wholeAll_iff.mp wholeRead _ (List.getElem_mem _))
  | _ => exact runs_misfit lasts wholeRead _ pos

theorem runs_lengthOf (pos : Pos) (evaluated : Yields options sought pops value moments)
    (sound : machine.Sound) (whole : machine.Whole) :
    Runs options sought pops machine (lengthOf options pos value) machine (moments machine)
      fun value _ => value.Whole := by
  apply (evaluated machine sound whole).seq
  rintro array middle - lasts ⟨_, wholeArray⟩
  split
  · exact runs_pure lasts trivial
  · exact runs_misfit lasts wholeArray _ pos

theorem runs_pushTo (pos : Pos)
    (pushed : Finds options sought pops (Target.push pos target value) moments)
    (sound : machine.Sound) (whole : machine.Whole) :
    Runs options sought pops machine (pushTo options pos target value) machine (moments machine)
      fun value _ => value.Whole := by
  apply (pushed machine sound whole).seq
  rintro found middle - lasts ⟨sound, live⟩
  split
  · exact runs_report lasts _
  · next location =>
      apply (runs_load lasts sound (live location rfl)).seq
      rintro loaded _ - lasts ⟨rfl, wholeLoaded, _⟩
      exact runs_copy lasts wholeLoaded

theorem runs_popFrom (pos : Pos) (popping : pops)
    (located : Finds options sought pops target moments) (sound : machine.Sound)
    (whole : machine.Whole) :
    Runs options sought pops machine (popFrom options pos target) machine (moments machine)
      fun value _ => value.Whole := by
  apply (runs_array .pop pos located sound whole).seq
  rintro found after - lasts ⟨sound, live⟩
  split
  · exact runs_report lasts _
  · next location stamp =>
      obtain ⟨_, elements, stored⟩ := live location stamp rfl
      unfold Runs
      rw [leads_bind, leads_get, stored, Option.getD_some]
      cases ending : elements.getLast? with
      | none => exact runs_pure lasts trivial
      | some last =>
          obtain ⟨before, rfl⟩ := List.getLast?_eq_some_iff.mp ending
          have popped := @Machine.lasts_modifyArray pops after sound lasts.whole stamp _ stored
            List.dropLast [last] after.next
            (fun wholeItems => wholeItems.subset (List.dropLast_subset _)) (by simp) (by simp)
            (fun kept => absurd popping kept)
          refine ⟨lasts.trans popped, ?_⟩
          exact Value.wholeAll_iff.mp (lasts.whole.array stored) last (by simp)

/-- The index is evaluated between finding the place around a slot and reading it: only a `pop` in
the index can take away what was found. -/
theorem runs_slot {base position : Expr} (pos : Pos) (slot : sought (.index base position pos))
    (popping : position.pops = true → pops)
    (located : Finds options sought pops (locate options base) (base.searching options))
    (evaluated : Yields options sought (position.pops = true) (evaluate options position)
      (position.moments options)) (sound : machine.Sound) (whole : machine.Whole) :
    Runs options sought pops machine (locate options (.index base position pos)) machine
      ((Expr.index base position pos).searching options machine)
      fun found after => ∀ location, found = .ok location → location.Live after := by
  rw [locate]
  have searched := (located machine sound whole).within
    (show _ <:+: (Expr.index base position pos).searching options machine by
      rw [searching_index, List.append_assoc]
      exact (List.prefix_append _ _).isInfix)
  apply searched.andThen
  rintro found between result lasts ⟨soundBetween, live⟩
  cases found with
  | error error => exact runs_pure lasts (by rintro _ ⟨⟩)
  | ok place =>
      have inside : position.moments options between <:+:
          (Expr.index base position pos).searching options machine := by
        rw [searching_index, onward_of_ok result]
        exact List.infix_append _ _ _
      have indexed := evaluated between soundBetween lasts.whole
      apply ((indexed.within inside).since lasts popping).andThen
      rintro value after resultIndex lastsAfter ⟨soundAfter, wholeValue⟩
      have loads : Runs options sought pops machine place.load after
          ((Expr.index base position pos).searching options machine) fun loaded last =>
            last = after ∧ loaded.Whole ∧ ∀ stamp elements, loaded = .arr stamp elements →
              after.array? stamp = some elements := by
        unfold Runs Leads
        have spec := Location.load_spec soundAfter lastsAfter.whole place
        cases load : place.load after with
        | ok loaded last =>
            obtain ⟨rfl, loadedWhole⟩ := spec.of_ok load
            exact ⟨lastsAfter, rfl, loadedWhole⟩
        | error stop last =>
            obtain ⟨rfl, gone, crash, rfl⟩ := spec.of_error load
            have popped : position.pops = true := Decidable.byContradiction fun unpopped =>
              gone ((live place rfl).later (indexed.of_ok resultIndex).1 unpopped)
            exact ⟨lastsAfter.whole, .intro slot popped List.infix_rfl result resultIndex load⟩
      apply loads.andThen
      rintro loaded _ - lasts ⟨rfl, wholeLoaded, stored⟩
      split
      · next stamp elements =>
          apply (runs_checkIndex lasts wholeValue).andThen
          rintro checked _ - lasts ⟨rfl, within⟩
          split
          · exact runs_pure lasts (by rintro _ ⟨⟩)
          · next index =>
              refine runs_pure lasts ?_
              rintro _ ⟨⟩
              exact ⟨elements.length,
                Value.mem_sizesAll_of_findIn? soundAfter.once (stored stamp elements rfl),
                within index rfl⟩
      · exact (runs_kindOf lasts wholeLoaded).andThen fun _ _ _ lasts _ =>
          runs_pure lasts (by rintro _ ⟨⟩)

end Parts

/-- The slots of the targets among the given expressions are sought, and a `pop` among them pops. -/
structure Fits (sought : Expr → Prop) (pops : Prop) (parts : List Expr) : Prop where
  slots : ∀ target ∈ parts.filterMap Expr.target?, ∀ slot ∈ target.spine, sought slot
  pops : ∀ part ∈ parts, part.isPop = true → pops

section Fits

variable {options : Options} {sought : Expr → Prop} {pops : Prop} {expr : Expr}
  {moments : Machine → List Moment}

theorem Fits.mono {some all : List Expr} (fits : Fits sought pops all) (subset : some ⊆ all) :
    Fits sought pops some :=
  ⟨fun target member => fits.slots target (List.filterMap_subset _ subset member),
    fun part member => fits.pops part (subset member)⟩

theorem Fits.alone (fits : Fits sought pops expr.parts) :
    Fits sought (expr.pops = true) expr.parts :=
  ⟨fits.slots, fun part member popping => List.any_eq_true.mpr ⟨part, member, popping⟩⟩

theorem Fits.popping (fits : Fits sought pops expr.parts) (popping : expr.pops = true) : pops := by
  obtain ⟨part, member, isPop⟩ := List.any_eq_true.mp popping
  exact fits.pops part member isPop

theorem evaluate_yields
    (runs : ∀ machine : Machine, machine.Sound → machine.Whole →
      Runs options sought pops machine (evaluate options expr) machine (moments machine)
        fun value _ => value.Whole)
    (passed : ∀ machine, expr.moments options machine =
      moments machine ++ ending .evaluated (evaluate options expr) machine) :
    Yields options sought pops (evaluate options expr) (expr.moments options) := by
  intro machine sound whole
  rw [passed]
  exact ((runs machine sound whole).within (List.prefix_append _ _).isInfix).sound
    (evaluate_keeps options expr machine sound)

theorem locate_finds
    (runs : ∀ machine : Machine, machine.Sound → machine.Whole →
      Runs options sought pops machine (locate options expr) machine (moments machine)
        fun found after => ∀ location, found = .ok location → location.Live after)
    (passed : ∀ machine, ∃ last, expr.searching options machine = moments machine ++ last) :
    Finds options sought pops (locate options expr) (expr.searching options) := by
  intro machine sound whole
  obtain ⟨last, same⟩ := passed machine
  rw [same]
  exact ((runs machine sound whole).within (List.prefix_append _ _).isInfix).sound
    (locate_keeps options expr machine sound)

theorem push_finds (pos : Pos) {target value : Expr}
    (evaluated : Yields options sought pops (evaluate options value) (value.moments options))
    (located : Finds options sought pops (locate options target) (target.searching options)) :
    Finds options sought pops
      (Target.push pos (locate options target) (evaluate options value))
      (momentsGiven options (some .push) [target, value]) := by
  intro machine sound whole
  exact (runs_push pos evaluated located sound whole).sound
    (locates_push pos (locate_keeps options target) (evaluate_keeps options value)
      (fun _ _ => trivial) machine sound)

end Fits

mutual

theorem evaluate_runs (options : Options) {sought : Expr → Prop} {pops : Prop} {expr : Expr}
    (spelled : expr.Spelled) (fits : Fits sought pops expr.parts) :
    Yields options sought pops (evaluate options expr) (expr.moments options) := by
  cases expr with
  | absent => exact spelled.elim
  | int digits pos =>
      refine evaluate_yields (fun machine sound whole => ?_) fun machine => (List.nil_append _).symm
      rw [evaluate]
      split
      · exact runs_pure (.refl whole) trivial
      · exact runs_fail (.refl whole) _ pos
  | float digits pos =>
      refine evaluate_yields (fun machine sound whole => ?_) fun machine => (List.nil_append _).symm
      rw [evaluate]
      split
      · exact runs_pure (.refl whole) trivial
      · exact runs_fail (.refl whole) _ pos
  | str value pos =>
      refine evaluate_yields (fun machine sound whole => ?_) fun machine => (List.nil_append _).symm
      rw [evaluate]
      exact runs_pure (.refl whole) trivial
  | name own pos =>
      refine evaluate_yields (fun machine sound whole => ?_) fun machine => (List.nil_append _).symm
      rw [evaluate]
      exact runs_readVariable (.refl whole) own pos
  | array elements pos =>
      refine evaluate_yields (fun machine sound whole => ?_) fun machine => rfl
      rw [evaluate]
      apply (collect_runs options spelled (fits.mono (Expr.parts_array elements pos)) sound
        whole).seq
      rintro values after - lasts ⟨_, wholeValues⟩
      exact ⟨lasts.of_held rfl, wholeValues⟩
  | unary op operand pos =>
      refine evaluate_yields (fun machine sound whole => ?_) fun machine => rfl
      rw [evaluate]
      apply (evaluate_runs options spelled.2 (fits.mono (Expr.parts_unary op operand pos)) machine
        sound whole).seq
      rintro value after - lasts ⟨_, wholeValue⟩
      exact runs_unary lasts spelled.1 wholeValue pos
  | binary op left right pos =>
      obtain ⟨known, leftSpelled, rightSpelled⟩ := spelled
      have evaluated := evaluate_runs options rightSpelled
        (fits.mono (Expr.parts_right op left right pos))
      have fitsLeft := fits.mono (Expr.parts_left op left right pos)
      by_cases assigns : op = .assign
      · subst assigns
        have located := locate_runs options leftSpelled fitsLeft
          (fits.slots left (Expr.mem_targets.mpr ⟨_, Expr.self_mem_parts _, rfl⟩))
        refine evaluate_yields (fun machine sound whole => ?_) fun machine => rfl
        rw [evaluate]
        exact runs_assign pos evaluated located sound whole
      · refine evaluate_yields (fun machine sound whole => ?_)
          (moments_binary options assigns left right pos)
        rw [evaluate_binary options assigns]
        apply (evaluate_runs options leftSpelled fitsLeft machine sound whole).bind
        rintro first middle - lasts ⟨sound, wholeFirst⟩
        apply ((evaluated middle sound lasts.whole).since lasts id).seq
        rintro second after - lasts ⟨_, wholeSecond⟩
        exact runs_binary lasts known assigns wholeFirst wholeSecond pos
  | index base position pos =>
      refine evaluate_yields (fun machine sound whole => ?_) fun machine => rfl
      rw [evaluate]
      exact runs_readElement pos
        (evaluate_runs options spelled.1 (fits.mono (Expr.parts_base base position pos)))
        (evaluate_runs options spelled.2 (fits.mono (Expr.parts_position base position pos)))
        sound whole
  | call callee arguments pos =>
      by_cases named : ∃ name namePos, callee = .name name namePos
      · obtain ⟨callee, calleePos, rfl⟩ := named
        exact evaluate_yields (call_runs options callee calleePos pos spelled.2 fits) fun _ => rfl
      · have unnamed : ∀ name namePos, callee ≠ .name name namePos :=
          fun name namePos same => named ⟨name, namePos, same⟩
        refine evaluate_yields (fun machine sound whole => ?_) fun machine =>
          (moments_call_other options unnamed arguments pos machine).trans (List.nil_append _).symm
        rw [evaluate_call_other options unnamed]
        exact runs_fail (.refl whole) _ pos

theorem call_runs (options : Options) {sought : Expr → Prop} {pops : Prop} (callee : Text)
    (calleePos : Pos) {arguments : List Expr} (pos : Pos) (spelled : Expr.SpelledAll arguments)
    (fits : Fits sought pops (Expr.call (.name callee calleePos) arguments pos).parts)
    (machine : Machine) (sound : machine.Sound) (whole : machine.Whole) :
    Runs options sought pops machine
      (evaluate options (.call (.name callee calleePos) arguments pos)) machine
      (momentsGiven options (Builtin.ofName? callee) arguments machine)
      fun value _ => value.Whole := by
  have inner := fits.mono (Expr.parts_arguments (.name callee calleePos) arguments pos)
  have target {first : Expr} {others : List Expr} (given : arguments = first :: others)
      (changes : callee = Builtin.push.name ∨ callee = Builtin.pop.name) :
      ∀ slot ∈ first.spine, sought slot := by
    subst given
    exact fits.slots first (Expr.mem_targets.mpr ⟨_, Expr.self_mem_parts _, if_pos changes⟩)
  rw [evaluate_call]
  cases known : Builtin.ofName? callee with
  | none => exact runs_fail (.refl whole) _ pos
  | some builtin =>
      have named := Builtin.name_of_ofName? known
      cases builtin with
      | printf =>
          cases arguments with
          | nil => exact runs_fail (.refl whole) _ pos
          | cons format others =>
              have fitsOthers :=
                inner.mono (List.subset_append_right format.parts (partsAll others))
              apply (evaluate_runs options spelled.1
                (inner.mono (List.subset_append_left format.parts (partsAll others))) machine sound
                whole).bind
              rintro value middle - lasts ⟨sound, wholeValue⟩
              cases value with
              | str format =>
                  have filled := (fill_runs options pos [] (Template.ofChars format.chars) spelled.2
                    fitsOthers sound lasts.whole).since lasts id
                  exact runs_flushing filled options.output
              | _ => exact runs_misfit lasts wholeValue _ pos
      | length =>
          match arguments with
          | [] => exact runs_fail (.refl whole) _ pos
          | [array] =>
              exact runs_lengthOf pos (evaluate_runs options spelled.1
                (inner.mono (parts_subset_partsAll List.mem_cons_self))) sound whole
          | _ :: _ :: _ => exact runs_fail (.refl whole) _ pos
      | push =>
          match arguments with
          | [] => exact runs_fail (.refl whole) _ pos
          | [_] => exact runs_fail (.refl whole) _ pos
          | [first, value] =>
              have evaluated := evaluate_runs options spelled.2.1
                (inner.mono (parts_subset_partsAll (List.mem_cons_of_mem _ List.mem_cons_self)))
              have located := locate_runs options spelled.1
                (inner.mono (parts_subset_partsAll List.mem_cons_self))
                (target rfl (.inl named.symm))
              exact runs_pushTo pos (push_finds pos evaluated located) sound whole
          | _ :: _ :: _ :: _ => exact runs_fail (.refl whole) _ pos
      | pop =>
          match arguments with
          | [] => exact runs_fail (.refl whole) _ pos
          | [first] =>
              have popping : pops :=
                fits.pops _ (Expr.self_mem_parts _) (by simp [Expr.isPop, named])
              exact runs_popFrom pos popping (locate_runs options spelled.1
                (inner.mono (parts_subset_partsAll List.mem_cons_self))
                (target rfl (.inr named.symm))) sound whole
          | _ :: _ :: _ => exact runs_fail (.refl whole) _ pos

theorem collect_runs (options : Options) {sought : Expr → Prop} {pops : Prop} {exprs : List Expr}
    (spelled : Expr.SpelledAll exprs) (fits : Fits sought pops (partsAll exprs)) {machine : Machine}
    (sound : machine.Sound) (whole : machine.Whole) :
    Runs options sought pops machine (collect (evaluateEach options exprs)) machine
      (momentsEach options exprs machine)
      fun values after => after.Sound ∧ Value.WholeAll values := by
  cases exprs with
  | nil => exact runs_pure (.refl whole) ⟨sound, trivial⟩
  | cons first rest =>
      have fitsFirst := fits.mono (List.subset_append_left first.parts (partsAll rest))
      have fitsRest := fits.mono (List.subset_append_right first.parts (partsAll rest))
      apply (evaluate_runs options spelled.1 fitsFirst machine sound whole).bind
      rintro value middle - lasts ⟨sound, wholeValue⟩
      apply ((collect_runs options spelled.2 fitsRest sound lasts.whole).since lasts id).seq
      rintro values after - lasts ⟨sound, wholeValues⟩
      exact runs_pure lasts ⟨sound, wholeValue, wholeValues⟩

theorem fill_runs (options : Options) {sought : Expr → Prop} {pops : Prop} (pos : Pos)
    (pending : Text) (template : Template) {exprs : List Expr} (spelled : Expr.SpelledAll exprs)
    (fits : Fits sought pops (partsAll exprs)) {machine : Machine} (sound : machine.Sound)
    (whole : machine.Whole) :
    Runs options sought pops machine
      (Printf.fill options pos pending template (evaluateEach options exprs)) machine
      (momentsFilling options pending template exprs machine)
      fun value _ => value.Whole := by
  cases template with
  | finish before =>
      exact (runs_write (.refl whole) sound options.output _).seq fun _ _ _ lasts _ =>
        runs_pure lasts trivial
  | malformed before fault =>
      exact (runs_write (.refl whole) sound options.output _).seq fun _ _ _ lasts _ =>
        runs_fail lasts fault pos
  | hole before rest =>
      cases exprs with
      | nil =>
          exact (runs_write (.refl whole) sound options.output _).seq fun _ _ _ lasts _ =>
            runs_fail lasts _ pos
      | cons first others =>
          have fitsFirst := fits.mono (List.subset_append_left first.parts (partsAll others))
          have fitsOthers := fits.mono (List.subset_append_right first.parts (partsAll others))
          have wrote : Runs options sought pops machine
              (Machine.write options.output (pending ++ before)) machine []
              fun _ after => after.Sound := runs_write (.refl whole) sound options.output _
          refine (wrote.bind ?_).within (List.infix_rfl)
          intro _ written _ lasts sound
          apply ((evaluate_runs options spelled.1 fitsFirst written sound lasts.whole).since lasts
            id).bind
          rintro value after - lasts ⟨sound, _⟩
          exact (fill_runs options pos value.printed rest spelled.2 fitsOthers sound
            lasts.whole).since lasts id

theorem locate_runs (options : Options) {sought : Expr → Prop} {pops : Prop} {expr : Expr}
    (spelled : expr.Spelled) (fits : Fits sought pops expr.parts)
    (spine : ∀ slot ∈ expr.spine, sought slot) :
    Finds options sought pops (locate options expr) (expr.searching options) := by
  cases expr with
  | name own pos =>
      refine locate_finds (fun machine sound whole => ?_) fun machine =>
        ⟨_, (List.nil_append _).symm⟩
      unfold Runs
      rw [locate, Target.named, leads_bind, leads_get]
      split
      · exact runs_pure (.refl whole) nofun
      · refine runs_pure (.refl whole) ?_
        rintro _ ⟨⟩
        trivial
  | index base position pos =>
      have fitsPosition := fits.mono (Expr.parts_position base position pos)
      have located := locate_runs options spelled.1 (fits.mono (Expr.parts_base base position pos))
        fun slot member => spine slot (List.mem_cons_of_mem _ member)
      exact locate_finds (fun machine => runs_slot pos (spine _ List.mem_cons_self)
        fitsPosition.popping located (evaluate_runs options spelled.2 fitsPosition.alone))
        fun machine => ⟨[], (List.append_nil _).symm⟩
  | call callee arguments pos =>
      by_cases named : ∃ name namePos, callee = .name name namePos
      · obtain ⟨callee, calleePos, rfl⟩ := named
        refine locate_finds (fun machine sound whole => ?_) fun machine => ⟨_, rfl⟩
        rw [locate_call]
        by_cases isPush : callee = Builtin.push.name
        · simp only [isPush, if_true]
          have inner := fits.mono (Expr.parts_arguments (.name callee calleePos) arguments pos)
          match arguments with
          | [] => exact runs_pure (.refl whole) nofun
          | [_] => exact runs_pure (.refl whole) nofun
          | [target, value] =>
              have evaluated := evaluate_runs options spelled.2.2.1
                (inner.mono (parts_subset_partsAll (List.mem_cons_of_mem _ List.mem_cons_self)))
              have located := locate_runs options spelled.2.1
                (inner.mono (parts_subset_partsAll List.mem_cons_self)) (fits.slots target
                  (Expr.mem_targets.mpr ⟨_, Expr.self_mem_parts _, if_pos (.inl isPush)⟩))
              exact (push_finds pos evaluated located machine sound whole).mono
                fun _ _ _ found => found.2
          | _ :: _ :: _ :: _ => exact runs_pure (.refl whole) nofun
        · simp only [isPush, if_false]
          exact runs_pure (.refl whole) nofun
      · have unnamed : ∀ name namePos, callee ≠ .name name namePos :=
          fun name namePos same => named ⟨name, namePos, same⟩
        refine locate_finds (fun machine sound whole => ?_) fun machine =>
          ⟨_, (List.nil_append _).symm⟩
        rw [locate_call_other options unnamed]
        exact runs_pure (.refl whole) nofun
  | _ =>
      refine locate_finds (fun machine sound whole => ?_) fun machine =>
        ⟨_, (List.nil_append _).symm⟩
      exact runs_pure (.refl whole) nofun

end

end Rover
