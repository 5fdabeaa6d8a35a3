import Rover.Scope
import Rover.Proofs.Stamps

/-!
How the bindings of a chain of scopes change while an expression is evaluated: names and flags stay,
constants keep their values, what comes in is new, and only the nearest binding of a name that may
be written to changes at all. An array stays with the binding that holds it.
-/

namespace Rover

/-- How the bindings of a chain change. The predicate says which names may get another value; it is
narrowed on the way outward, so that it only ever grants the nearest binding of a name. -/
structure Binding.Evolved (next : Stamp) (may : Prop) (old new : Binding Value) : Prop where
  constant : new.constant = old.constant
  kept : new = old ∨ may ∧ old.constant = false
  stamps : ∀ stamp ∈ new.value.stamps, stamp ∈ old.value.stamps ∨ next ≤ stamp

namespace Binding.Evolved

variable {next later : Stamp} {may wider : Prop} {old middle new : Binding Value}

theorem refl (next : Stamp) (may : Prop) (binding : Binding Value) :
    binding.Evolved next may binding :=
  ⟨rfl, .inl rfl, fun _ held => .inl held⟩

theorem trans (later_le : next ≤ later) (first : old.Evolved next may middle)
    (second : middle.Evolved later may new) : old.Evolved next may new := by
  refine ⟨second.constant.trans first.constant, ?_, ?_⟩
  · rcases second.kept with rfl | ⟨granted, free⟩
    · exact first.kept
    · exact .inr ⟨granted, first.constant.symm.trans free⟩
  · intro stamp held
    rcases second.stamps stamp held with inMiddle | fresh
    · exact first.stamps stamp inMiddle
    · exact .inr (Nat.le_trans later_le fresh)

theorem mono (implies : may → wider) (evolved : old.Evolved next may new) :
    old.Evolved next wider new :=
  ⟨evolved.constant, evolved.kept.imp_right (And.imp_left implies), evolved.stamps⟩

end Binding.Evolved

inductive Scope.Evolved (next : Stamp) : (Text → Prop) → Scope Value → Scope Value → Prop
  | nil (may : Text → Prop) : Scope.Evolved next may [] []
  | cons {may : Text → Prop} {name : Text} {old new : Binding Value} {rest after : Scope Value}
      (head : old.Evolved next (may name) new)
      (tail : Scope.Evolved next (fun other => may other ∧ other ≠ name) rest after) :
      Scope.Evolved next may ((name, old) :: rest) ((name, new) :: after)

namespace Scope.Evolved

variable {next later : Stamp} {may wider : Text → Prop} {old middle new : Scope Value}

theorem refl (next : Stamp) (may : Text → Prop) (scope : Scope Value) :
    Scope.Evolved next may scope scope := by
  induction scope generalizing may with
  | nil => exact .nil may
  | cons entry rest ih => exact .cons (.refl next _ entry.2) (ih _)

theorem mono (implies : ∀ name, may name → wider name) (evolved : Scope.Evolved next may old new) :
    Scope.Evolved next wider old new := by
  induction evolved generalizing wider with
  | nil => exact .nil wider
  | cons head tail ih =>
      exact .cons (head.mono (implies _))
        (ih fun other granted => ⟨implies other granted.1, granted.2⟩)

theorem trans (later_le : next ≤ later) (first : Scope.Evolved next may old middle)
    (second : Scope.Evolved later may middle new) : Scope.Evolved next may old new := by
  induction first generalizing new with
  | nil => cases second; exact .nil _
  | cons head tail ih =>
      cases second with
      | cons head' tail' => exact .cons (head.trans later_le head') (ih tail')

theorem find?_eq_none_iff (evolved : Scope.Evolved next may old new) (name : Text) :
    new.find? name = none ↔ old.find? name = none := by
  induction evolved with
  | nil => exact Iff.rfl
  | cons head tail ih =>
      simp only [Scope.find?]
      split
      · simp
      · exact ih

theorem find? (evolved : Scope.Evolved next may old new) {name : Text} {binding : Binding Value}
    (found : new.find? name = some binding) :
    ∃ before, old.find? name = some before ∧ before.Evolved next (may name) binding := by
  induction evolved with
  | nil => cases found
  | cons head tail ih =>
      simp only [Scope.find?] at found ⊢
      split at found
      · next same =>
          cases found
          subst same
          exact ⟨_, if_pos rfl, head⟩
      · next differs =>
          obtain ⟨before, foundBefore, evolved⟩ := ih found
          exact ⟨before, by rw [if_neg differs, foundBefore], evolved.mono And.left⟩

theorem stamps (evolved : Scope.Evolved next may old new) {stamp : Stamp}
    (held : stamp ∈ Value.stampsAll (new.map (·.2.value))) :
    stamp ∈ Value.stampsAll (old.map (·.2.value)) ∨ next ≤ stamp := by
  induction evolved with
  | nil => exact .inl held
  | cons head tail ih =>
      simp only [List.map_cons, Value.stampsAll_cons, List.mem_append] at held ⊢
      rcases held with inHead | inTail
      · exact (head.stamps stamp inHead).imp_left .inl
      · exact (ih inTail).imp_left .inr

end Scope.Evolved

inductive Chain.Evolved (next : Stamp) : (Text → Prop) → Chain Value → Chain Value → Prop
  | nil (may : Text → Prop) : Chain.Evolved next may [] []
  | cons {may : Text → Prop} {old new : Scope Value} {outer after : Chain Value}
      (head : Scope.Evolved next may old new)
      (tail : Chain.Evolved next (fun name => may name ∧ old.find? name = none) outer after) :
      Chain.Evolved next may (old :: outer) (new :: after)

def Chain.values (chain : Chain Value) : List Value :=
  chain.flatMap fun scope => scope.map (·.2.value)

@[simp] theorem Chain.values_nil : Chain.values [] = [] := rfl

@[simp] theorem Chain.values_cons (scope : Scope Value) (outer : Chain Value) :
    Chain.values (scope :: outer) = scope.map (·.2.value) ++ outer.values := rfl

namespace Chain.Evolved

variable {next later : Stamp} {may wider : Text → Prop} {old middle new : Chain Value}

theorem refl (next : Stamp) (may : Text → Prop) (chain : Chain Value) :
    Chain.Evolved next may chain chain := by
  induction chain generalizing may with
  | nil => exact .nil may
  | cons scope outer ih => exact .cons (.refl next may scope) (ih _)

theorem mono (implies : ∀ name, may name → wider name) (evolved : Chain.Evolved next may old new) :
    Chain.Evolved next wider old new := by
  induction evolved generalizing wider with
  | nil => exact .nil wider
  | cons head tail ih =>
      exact .cons (head.mono implies) (ih fun name granted => ⟨implies name granted.1, granted.2⟩)

theorem trans (later_le : next ≤ later) (first : Chain.Evolved next may old middle)
    (second : Chain.Evolved later may middle new) : Chain.Evolved next may old new := by
  induction first generalizing new with
  | nil => cases second; exact .nil _
  | cons head tail ih =>
      cases second with
      | cons head' tail' =>
          refine .cons (head.trans later_le head') (ih (tail'.mono ?_))
          exact fun name granted => ⟨granted.1, (head.find?_eq_none_iff name).mp granted.2⟩

theorem find? (evolved : Chain.Evolved next may old new) {name : Text} {binding : Binding Value}
    (found : Chain.find? new name = some binding) :
    ∃ before, Chain.find? old name = some before ∧ before.Evolved next (may name) binding := by
  induction evolved with
  | nil => cases found
  | @cons _ oldScope newScope _ _ head tail ih =>
      simp only [Chain.find?] at found ⊢
      cases inScope : newScope.find? name with
      | some inner =>
          rw [inScope] at found
          cases found
          obtain ⟨before, foundBefore, evolved⟩ := head.find? inScope
          exact ⟨before, by rw [foundBefore], evolved⟩
      | none =>
          rw [inScope] at found
          obtain ⟨before, foundBefore, evolved⟩ := ih found
          rw [(head.find?_eq_none_iff name).mp inScope]
          exact ⟨before, foundBefore, evolved.mono And.left⟩

theorem stamps (evolved : Chain.Evolved next may old new) {stamp : Stamp}
    (held : stamp ∈ Value.stampsAll new.values) :
    stamp ∈ Value.stampsAll old.values ∨ next ≤ stamp := by
  induction evolved with
  | nil => exact .inl held
  | cons head tail ih =>
      simp only [Chain.values_cons, Value.stampsAll_append, List.mem_append] at held ⊢
      rcases held with inHead | inTail
      · exact (head.stamps inHead).imp_left .inl
      · exact (ih inTail).imp_left .inr

end Chain.Evolved

/-- Where the array with a stamp is held. The predicate is narrowed as above: it tells the name and
the flag of a binding that holds the array, and that no nearer binding has the name. -/
def Scope.Holds (stamp : Stamp) (owner : Text → Bool → Prop) : Scope Value → Prop
  | [] => True
  | (name, binding) :: rest =>
      (stamp ∈ binding.value.stamps → owner name binding.constant) ∧
        Holds stamp (fun other flag => owner other flag ∧ other ≠ name) rest

def Chain.Holds (stamp : Stamp) (owner : Text → Bool → Prop) : Chain Value → Prop
  | [] => True
  | scope :: outer =>
      scope.Holds stamp owner ∧
        Holds stamp (fun name flag => owner name flag ∧ scope.find? name = none) outer

section Holds

variable {stamp below : Stamp} {owner wider : Text → Bool → Prop}

theorem Scope.Holds.mono {scope : Scope Value}
    (implies : ∀ name flag, owner name flag → wider name flag)
    (holds : scope.Holds stamp owner) : scope.Holds stamp wider := by
  induction scope generalizing owner wider with
  | nil => trivial
  | cons entry rest ih =>
      exact ⟨fun held => implies _ _ (holds.1 held),
        ih (fun other flag granted => ⟨implies other flag granted.1, granted.2⟩) holds.2⟩

theorem Chain.Holds.mono {chain : Chain Value}
    (implies : ∀ name flag, owner name flag → wider name flag)
    (holds : chain.Holds stamp owner) : chain.Holds stamp wider := by
  induction chain generalizing owner wider with
  | nil => trivial
  | cons scope outer ih =>
      exact ⟨holds.1.mono implies,
        ih (fun name flag granted => ⟨implies name flag granted.1, granted.2⟩) holds.2⟩

theorem Scope.holds_of_notMem {scope : Scope Value}
    (missing : stamp ∉ Value.stampsAll (scope.map (·.2.value))) : scope.Holds stamp owner := by
  induction scope generalizing owner with
  | nil => trivial
  | cons entry rest ih =>
      simp only [List.map_cons, Value.stampsAll_cons, List.mem_append, not_or] at missing
      exact ⟨fun held => absurd held missing.1, ih missing.2⟩

theorem Chain.holds_of_notMem {chain : Chain Value}
    (missing : stamp ∉ Value.stampsAll chain.values) : chain.Holds stamp owner := by
  induction chain generalizing owner with
  | nil => trivial
  | cons scope outer ih =>
      simp only [Chain.values_cons, Value.stampsAll_append, List.mem_append, not_or] at missing
      exact ⟨Scope.holds_of_notMem missing.1, ih missing.2⟩

theorem Scope.Holds.inward {scope : Scope Value} (holds : scope.Holds stamp owner)
    (outward : ∀ value ∈ scope.map (·.2.value), below ∈ value.stamps → stamp ∈ value.stamps) :
    scope.Holds below owner := by
  induction scope generalizing owner with
  | nil => trivial
  | cons entry rest ih =>
      refine ⟨fun held => holds.1 (outward _ List.mem_cons_self held), ih holds.2 ?_⟩
      exact fun value member => outward value (List.mem_cons_of_mem _ member)

theorem Chain.Holds.inward {chain : Chain Value} (holds : chain.Holds stamp owner)
    (outward : ∀ value ∈ chain.values, below ∈ value.stamps → stamp ∈ value.stamps) :
    chain.Holds below owner := by
  induction chain generalizing owner with
  | nil => trivial
  | cons scope outer ih =>
      refine ⟨holds.1.inward ?_, ih holds.2 ?_⟩
      · exact fun value member => outward value (List.mem_append_left _ member)
      · exact fun value member => outward value (List.mem_append_right _ member)

theorem Scope.mem_values_of_find? {scope : Scope Value} {name : Text} {binding : Binding Value}
    (found : scope.find? name = some binding) : binding.value ∈ scope.map (·.2.value) := by
  induction scope with
  | nil => cases found
  | cons entry rest ih =>
      simp only [Scope.find?] at found
      split at found
      · cases found
        exact List.mem_cons_self
      · exact List.mem_cons_of_mem _ (ih found)

theorem Chain.mem_values_of_find? {chain : Chain Value} {name : Text} {binding : Binding Value}
    (found : chain.find? name = some binding) : binding.value ∈ chain.values := by
  induction chain with
  | nil => cases found
  | cons scope outer ih =>
      simp only [Chain.find?] at found
      cases inScope : scope.find? name with
      | some inner =>
          rw [inScope] at found
          cases found
          exact List.mem_append_left _ (Scope.mem_values_of_find? inScope)
      | none =>
          rw [inScope] at found
          exact List.mem_append_right _ (ih found)

theorem Scope.mem_stamps_of_find? {scope : Scope Value} {name : Text} {binding : Binding Value}
    (found : scope.find? name = some binding) (held : stamp ∈ binding.value.stamps) :
    stamp ∈ Value.stampsAll (scope.map (·.2.value)) :=
  Value.mem_stampsAll.mpr ⟨_, Scope.mem_values_of_find? found, held⟩

theorem Chain.mem_stamps_of_find? {chain : Chain Value} {name : Text} {binding : Binding Value}
    (found : chain.find? name = some binding) (held : stamp ∈ binding.value.stamps) :
    stamp ∈ Value.stampsAll chain.values :=
  Value.mem_stampsAll.mpr ⟨_, Chain.mem_values_of_find? found, held⟩

/-- The nearest binding of a name holds the arrays of its value. -/
theorem Scope.holds_of_find? {scope : Scope Value} {name : Text} {binding : Binding Value}
    (once : (Value.stampsAll (scope.map (·.2.value))).Nodup)
    (found : scope.find? name = some binding) (held : stamp ∈ binding.value.stamps) :
    scope.Holds stamp (fun other flag => other = name ∧ flag = binding.constant) := by
  induction scope with
  | nil => cases found
  | cons entry rest ih =>
      obtain ⟨own, old⟩ := entry
      simp only [List.map_cons, Value.stampsAll_cons, List.nodup_append] at once
      simp only [Scope.find?] at found
      split at found
      · next same =>
          cases found
          refine ⟨fun _ => ⟨same, rfl⟩, Scope.holds_of_notMem fun inRest => ?_⟩
          exact once.2.2 stamp held stamp inRest rfl
      · next differs =>
          refine ⟨fun inOld => ?_, (ih once.2.1 found).mono ?_⟩
          · exact absurd rfl (once.2.2 stamp inOld stamp (Scope.mem_stamps_of_find? found held))
          · exact fun other flag granted =>
              ⟨granted, fun equal => differs (equal.symm.trans granted.1)⟩

theorem Chain.holds_of_find? {chain : Chain Value} {name : Text} {binding : Binding Value}
    (once : (Value.stampsAll chain.values).Nodup)
    (found : chain.find? name = some binding) (held : stamp ∈ binding.value.stamps) :
    chain.Holds stamp (fun other flag => other = name ∧ flag = binding.constant) := by
  induction chain with
  | nil => cases found
  | cons scope outer ih =>
      simp only [Chain.values_cons, Value.stampsAll_append, List.nodup_append] at once
      simp only [Chain.find?] at found
      cases inScope : scope.find? name with
      | some inner =>
          rw [inScope] at found
          cases found
          refine ⟨Scope.holds_of_find? once.1 inScope held, Chain.holds_of_notMem fun inOuter => ?_⟩
          exact once.2.2 stamp (Scope.mem_stamps_of_find? inScope held) stamp inOuter rfl
      | none =>
          rw [inScope] at found
          have inOuter := Chain.mem_stamps_of_find? found held
          refine ⟨Scope.holds_of_notMem fun inInner => ?_, (ih once.2.1 found).mono ?_⟩
          · exact once.2.2 stamp inInner stamp inOuter rfl
          · exact fun other flag granted => ⟨granted, by rw [granted.1]; exact inScope⟩

/-- A change that brings in new arrays only does not move the ones that were there. -/
theorem Scope.Holds.later {next : Stamp} {may : Text → Prop} {old new : Scope Value}
    (holds : old.Holds stamp owner) (old_lt : stamp < next)
    (evolved : Scope.Evolved next may old new) : new.Holds stamp owner := by
  induction evolved generalizing owner with
  | nil => trivial
  | cons head tail ih =>
      refine ⟨fun held => ?_, ih holds.2⟩
      rcases head.stamps stamp held with before | fresh
      · rw [head.constant]
        exact holds.1 before
      · exact absurd fresh (Nat.not_le.mpr old_lt)

theorem Chain.Holds.later {next : Stamp} {may : Text → Prop} {old new : Chain Value}
    (holds : old.Holds stamp owner) (old_lt : stamp < next)
    (evolved : Chain.Evolved next may old new) : new.Holds stamp owner := by
  induction evolved generalizing owner with
  | nil => trivial
  | cons head tail ih =>
      refine ⟨holds.1.later old_lt head, ih (holds.2.mono ?_)⟩
      exact fun name flag granted => ⟨granted.1, (head.find?_eq_none_iff name).mpr granted.2⟩

end Holds

/-- The two ways in which an expression changes bindings: an array that one of them holds gets other
elements, or a variable gets another value. -/
def Scope.modified (stamp : Stamp) (change : List Value → List Value) (scope : Scope Value) :
    Scope Value :=
  scope.map fun entry => (entry.1, { entry.2 with value := entry.2.value.modify stamp change })

section Changes

variable {next stamp : Stamp} {may : Text → Prop} {change : List Value → List Value}

theorem Scope.modified_evolved (adds : Value.AddsOnly (next ≤ ·) change) {scope : Scope Value}
    (holds : scope.Holds stamp (fun name flag => may name ∧ flag = false)) :
    Scope.Evolved next may scope (scope.modified stamp change) := by
  induction scope generalizing may with
  | nil => exact .nil may
  | cons entry rest ih =>
      obtain ⟨name, binding⟩ := entry
      refine .cons ⟨rfl, ?_, fun _ => Value.modify_stamps adds stamp binding.value⟩ (ih ?_)
      · by_cases held : stamp ∈ binding.value.stamps
        · exact .inr (holds.1 held)
        · left
          rw [Value.modify_of_notMem change held]
      · exact holds.2.mono fun other flag granted => ⟨⟨granted.1.1, granted.2⟩, granted.1.2⟩

theorem Chain.modified_evolved (adds : Value.AddsOnly (next ≤ ·) change) {chain : Chain Value}
    (holds : chain.Holds stamp (fun name flag => may name ∧ flag = false)) :
    Chain.Evolved next may chain (chain.map (Scope.modified stamp change)) := by
  induction chain generalizing may with
  | nil => exact .nil may
  | cons scope outer ih =>
      refine .cons (Scope.modified_evolved adds holds.1) (ih (holds.2.mono ?_))
      exact fun name flag granted => ⟨⟨granted.1.1, granted.2⟩, granted.1.2⟩

theorem Scope.define_evolved {scope : Scope Value} {name : Text} {binding : Binding Value}
    {value : Value} (found : scope.find? name = some binding) (free : binding.constant = false)
    (granted : may name) (fresh : ∀ stamp ∈ value.stamps, next ≤ stamp) :
    Scope.Evolved next may scope (scope.define name { binding with value }) := by
  induction scope generalizing may with
  | nil => cases found
  | cons entry rest ih =>
      obtain ⟨own, old⟩ := entry
      simp only [Scope.find?] at found
      simp only [Scope.define]
      split at found
      · next same =>
          cases found
          subst same
          rw [if_pos rfl]
          exact .cons ⟨rfl, .inr ⟨granted, free⟩, fun stamp held => .inr (fresh stamp held)⟩
            (.refl ..)
      · next differs =>
          rw [if_neg differs]
          exact .cons (.refl ..) (ih found ⟨granted, fun same => differs same.symm⟩)

theorem Chain.set_evolved {chain : Chain Value} {name : Text} {binding : Binding Value}
    {value : Value} (found : chain.find? name = some binding) (free : binding.constant = false)
    (granted : may name) (fresh : ∀ stamp ∈ value.stamps, next ≤ stamp) :
    Chain.Evolved next may chain (chain.set name value) := by
  induction chain generalizing may with
  | nil => cases found
  | cons scope outer ih =>
      simp only [Chain.find?] at found
      simp only [Chain.set]
      cases inScope : scope.find? name with
      | some inner =>
          rw [inScope] at found
          cases found
          exact .cons (Scope.define_evolved inScope free granted fresh) (.refl ..)
      | none =>
          rw [inScope] at found
          exact .cons (.refl ..) (ih found ⟨granted, inScope⟩)

theorem Scope.define_perm (scope : Scope Value) (name : Text) (new : Binding Value) :
    (Value.stampsAll ((scope.define name new).map (·.2.value)) ++
      ((scope.find? name).map (·.value.stamps)).getD []).Perm
        (Value.stampsAll (scope.map (·.2.value)) ++ new.value.stamps) := by
  induction scope with
  | nil => simp [Scope.define]
  | cons entry rest ih =>
      obtain ⟨own, old⟩ := entry
      simp only [Scope.define, Scope.find?]
      split
      · simp only [List.map_cons, Value.stampsAll_cons, Option.map_some, Option.getD_some]
        apply List.perm_iff_count.mpr
        intro stamp
        simp only [List.count_append]
        omega
      · simp only [List.map_cons, Value.stampsAll_cons, List.append_assoc]
        exact ih.append_left _

theorem Chain.define_perm (chain : Chain Value) (name : Text) (new : Binding Value) :
    ∃ dropped, (Value.stampsAll (chain.define name new).values ++ dropped).Perm
      (Value.stampsAll chain.values ++ new.value.stamps) := by
  cases chain with
  | nil => exact ⟨new.value.stamps, .refl _⟩
  | cons scope outer =>
      refine ⟨((scope.find? name).map (·.value.stamps)).getD [], ?_⟩
      simp only [Chain.define, Chain.values_cons, Value.stampsAll_append]
      apply List.perm_iff_count.mpr
      intro stamp
      have counted := (Scope.define_perm scope name new).count_eq stamp
      simp only [List.count_append] at counted ⊢
      omega

theorem Chain.set_perm {chain : Chain Value} {name : Text} {binding : Binding Value}
    (value : Value) (found : chain.find? name = some binding) :
    (Value.stampsAll (chain.set name value).values ++ binding.value.stamps).Perm
      (Value.stampsAll chain.values ++ value.stamps) := by
  induction chain with
  | nil => cases found
  | cons scope outer ih =>
      simp only [Chain.find?] at found
      simp only [Chain.set]
      cases inScope : scope.find? name with
      | some inner =>
          rw [inScope] at found
          cases found
          simp only [Chain.values_cons, Value.stampsAll_append]
          apply List.perm_iff_count.mpr
          intro stamp
          have counted := (Scope.define_perm scope name ⟨value, binding.constant⟩).count_eq stamp
          simp only [inScope, Option.map_some, Option.getD_some, List.count_append] at counted ⊢
          omega
      | none =>
          rw [inScope] at found
          simp only [Chain.values_cons, Value.stampsAll_append, List.append_assoc]
          exact (ih found).append_left _

end Changes

/-- Bindings by the depth of their scope, counted from the outermost, which opening and closing
inner scopes does not change. -/
def Chain.binding? : Chain Value → Nat → Text → Option (Binding Value)
  | [], _, _ => none
  | scope :: outer, depth, name =>
      if depth = outer.length then scope.find? name else binding? outer depth name

section Depth

variable {name : Text} {binding : Binding Value}

theorem Chain.lt_of_binding? {chain : Chain Value} {depth : Nat}
    (found : chain.binding? depth name = some binding) : depth < chain.length := by
  induction chain with
  | nil => cases found
  | cons scope outer ih =>
      rw [Chain.binding?] at found
      split at found
      · next here => exact here ▸ Nat.lt_succ_self _
      · exact Nat.lt_succ_of_lt (ih found)

theorem Chain.binding?_cons {scope : Scope Value} {outer : Chain Value} {depth : Nat}
    (inside : depth < outer.length) :
    Chain.binding? (scope :: outer) depth name = Chain.binding? outer depth name := by
  rw [Chain.binding?, if_neg (Nat.ne_of_lt inside)]

theorem Chain.binding?_tail {chain : Chain Value} {depth : Nat}
    (inside : depth < chain.tail.length) :
    Chain.binding? chain.tail depth name = Chain.binding? chain depth name := by
  cases chain with
  | nil => rfl
  | cons scope outer => exact (Chain.binding?_cons inside).symm

theorem Chain.binding?_define {chain : Chain Value} {other : Text} {new : Binding Value}
    {depth : Nat} (elsewhere : ¬(other = name ∧ chain.length = depth + 1)) :
    Chain.binding? (chain.define other new) depth name = Chain.binding? chain depth name := by
  cases chain with
  | nil => rfl
  | cons scope outer =>
      rw [Chain.define, Chain.binding?, Chain.binding?]
      split
      · next here =>
          rw [Scope.find?_define, if_neg]
          exact fun same => elsewhere ⟨same, here ▸ rfl⟩
      · rfl

variable {next : Stamp} {may : Text → Prop}

theorem Binding.Evolved.eq_of_constant {may : Prop} {old new : Binding Value}
    (evolved : old.Evolved next may new) (constant : old.constant = true) : new = old := by
  rcases evolved.kept with same | ⟨_, free⟩
  · exact same
  · rw [constant] at free
    cases free

theorem Scope.Evolved.find?_constant {old new : Scope Value}
    (evolved : Scope.Evolved next may old new) (constant : binding.constant = true) :
    old.find? name = some binding ↔ new.find? name = some binding := by
  cases found : new.find? name with
  | none => simp [(evolved.find?_eq_none_iff name).mp found]
  | some after =>
      obtain ⟨before, foundBefore, change⟩ := evolved.find? found
      rw [foundBefore, Option.some.injEq, Option.some.injEq]
      constructor
      · rintro rfl
        exact change.eq_of_constant constant
      · rintro rfl
        exact (change.eq_of_constant (change.constant ▸ constant)).symm

theorem Chain.Evolved.length_eq {old new : Chain Value} (evolved : Chain.Evolved next may old new) :
    new.length = old.length := by
  induction evolved with
  | nil => rfl
  | cons _ _ ih => rw [List.length_cons, List.length_cons, ih]

theorem Chain.Evolved.binding?_constant {old new : Chain Value} {depth : Nat}
    (evolved : Chain.Evolved next may old new) (constant : binding.constant = true) :
    Chain.binding? old depth name = some binding ↔
      Chain.binding? new depth name = some binding := by
  induction evolved with
  | nil => exact Iff.rfl
  | cons head tail ih =>
      rw [Chain.binding?, Chain.binding?, tail.length_eq]
      split
      · exact head.find?_constant constant
      · exact ih

end Depth

end Rover
