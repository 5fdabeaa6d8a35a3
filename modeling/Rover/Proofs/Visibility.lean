import Rover.Scope.Tree

/-!
What is seen from where in a tree of scopes. A name means its binding in the nearest scope outward,
so a definition shows in the scopes that look through to it, an assignment shows in the scopes that
share the nearest binding, and nothing else changes for anyone.
-/

namespace Rover

namespace Scope

variable {α : Type}

theorem names_define (scope : Scope α) (name : Text) (binding : Binding α) :
    (define name binding scope).names =
      if name ∈ scope.names then scope.names else scope.names ++ [name] := by
  induction scope with
  | nil => rfl
  | cons entry rest ih =>
      obtain ⟨own, old⟩ := entry
      by_cases same : own = name
      · subst same
        simp [define, names]
      · have other : name ≠ own := Ne.symm same
        simp only [names] at ih
        simp only [define, names, if_neg same, List.map_cons, ih, List.mem_cons, other, false_or]
        exact apply_ite (own :: ·) _ _ _

theorem mem_names_of_find? {scope : Scope α} {name : Text} {binding : Binding α}
    (found : scope.find? name = some binding) : name ∈ scope.names := by
  induction scope with
  | nil => simp at found
  | cons entry rest ih =>
      obtain ⟨own, old⟩ := entry
      rw [find?] at found
      rw [names, List.map_cons, List.mem_cons]
      split at found
      · next same => exact .inl same.symm
      · exact .inr (ih found)

theorem keys_perm (scope : Scope α) : scope.keys.Perm scope.names :=
  List.mergeSort_perm scope.names Text.le

theorem keys_define (scope : Scope α) (name : Text) (binding : Binding α) :
    (define name binding scope).keys.Perm
      (if name ∈ scope.keys then scope.keys else name :: scope.keys) := by
  refine (keys_perm _).trans ?_
  have same := (keys_perm scope).mem_iff (a := name)
  rw [names_define]
  by_cases bound : name ∈ scope.names
  · rw [if_pos bound, if_pos (same.mpr bound)]
    exact (keys_perm scope).symm
  · rw [if_neg bound, if_neg fun member => bound (same.mp member)]
    exact (List.perm_append_singleton name scope.names).trans ((keys_perm scope).symm.cons name)

end Scope

namespace ScopeTree

variable {α : Type}

/-- The trees that come about by opening scopes, defining names and assigning to them. -/
inductive Built : ScopeTree α → Prop
  | new : Built .new
  | extend {tree : ScopeTree α} {parent : Nat} (built : Built tree)
      (known : parent < tree.nodes.length) : Built (tree.extend parent).2
  | define {tree : ScopeTree α} (built : Built tree) (index : Nat) (name : Text)
      (binding : Binding α) : Built (tree.define index name binding)
  | assign {tree after : ScopeTree α} {index : Nat} {name : Text} {value : α} (built : Built tree)
      (assigned : tree.assign index name value = .ok after) : Built after

def Binds (tree : ScopeTree α) (index : Nat) (name : Text) : Prop :=
  ((tree.scope index).find? name).isSome

/-- The second scope is the first one or lies around it. -/
inductive Within (tree : ScopeTree α) : Nat → Nat → Prop
  | here (index : Nat) : Within tree index index
  | outward {index parent target : Nat} (above : tree.parent? index = some parent)
      (within : Within tree parent target) : Within tree index target

/-- Whoever looks for the name in the first scope gets as far as the second: none before it binds
the name. -/
inductive Sees (tree : ScopeTree α) (name : Text) : Nat → Nat → Prop
  | here (index : Nat) : Sees tree name index index
  | outward {index parent target : Nat} (free : ¬tree.Binds index name)
      (above : tree.parent? index = some parent) (seen : Sees tree name parent target) :
      Sees tree name index target

def Nearest (tree : ScopeTree α) (name : Text) (index owner : Nat) : Prop :=
  tree.Sees name index owner ∧ tree.Binds owner name

def Ordered (tree : ScopeTree α) : Prop :=
  ∀ index parent, tree.parent? index = some parent → parent < index

variable {tree : ScopeTree α} {index : Nat} {name : Text}

theorem scope_define (tree : ScopeTree α) (index : Nat) (name : Text) (binding : Binding α)
    (other : Nat) : (tree.define index name binding).scope other =
      if index = other ∧ other < tree.nodes.length then (tree.scope other).define name binding
      else tree.scope other := by
  unfold define update scope node?
  rw [List.getElem?_modify]
  by_cases same : index = other
  · subst same
    by_cases known : index < tree.nodes.length
    · simp [known]
    · simp [known]
  · simp [same]

theorem parent?_define (tree : ScopeTree α) (index : Nat) (name : Text) (binding : Binding α)
    (other : Nat) : (tree.define index name binding).parent? other = tree.parent? other := by
  unfold define update parent? node?
  rw [List.getElem?_modify]
  cases tree.nodes[other]? with
  | none => rfl
  | some node =>
      simp only [Option.map_eq_map, Option.map_some, Option.bind_some]
      split <;> rfl

theorem Ordered.define (ordered : tree.Ordered) (index : Nat) (name : Text) (binding : Binding α) :
    (tree.define index name binding).Ordered := by
  intro other parent above
  rw [parent?_define] at above
  exact ordered other parent above

theorem assign_ok {after : ScopeTree α} {value : α}
    (assigned : tree.assign index name value = .ok after) :
    ∃ owner binding, tree.owner? index name = some owner ∧
      (tree.scope owner).find? name = some binding ∧ binding.constant = false ∧
      after = tree.define owner name { binding with value } := by
  unfold assign lookup? at assigned
  cases found : tree.owner? index name with
  | none => simp [found] at assigned
  | some owner =>
      simp only [found, Option.bind_some] at assigned
      cases bound : (tree.scope owner).find? name with
      | none => simp [bound] at assigned
      | some binding =>
          simp only [bound] at assigned
          split at assigned
          · cases assigned
          · next free =>
              cases assigned
              exact ⟨owner, binding, rfl, bound, Bool.eq_false_iff.mpr free, rfl⟩

theorem Built.ordered (built : tree.Built) : tree.Ordered := by
  induction built with
  | new =>
      intro index parent above
      cases index <;> simp [parent?, node?, ScopeTree.new] at above
  | @extend tree parent _ known ih =>
      intro index above found
      change ((tree.nodes ++ [⟨[], some parent⟩])[index]?).bind (·.parent) = some above at found
      rw [List.getElem?_append] at found
      split at found
      · exact ih index above found
      · next beyond =>
          cases offset : index - tree.nodes.length with
          | zero =>
              simp only [offset, List.getElem?_cons_zero, Option.bind_some,
                Option.some.injEq] at found
              omega
          | succ => simp [offset] at found
  | define _ index name binding ih => exact ih.define index name binding
  | assign _ assigned ih =>
      obtain ⟨owner, binding, _, _, _, rfl⟩ := assign_ok assigned
      exact ih.define owner _ _

theorem owner?_step (ordered : tree.Ordered) (index : Nat) (name : Text) :
    tree.owner? index name =
      if ((tree.scope index).find? name).isSome then some index
      else (tree.parent? index).bind fun parent => tree.owner? parent name := by
  rw [owner?]
  split
  · rfl
  · cases above : tree.parent? index with
    | none => rfl
    | some parent => exact if_pos (ordered index parent above)

theorem lookup?_step (ordered : tree.Ordered) (index : Nat) (name : Text) :
    tree.lookup? index name = ((tree.scope index).find? name).or
      ((tree.parent? index).bind fun parent => tree.lookup? parent name) := by
  unfold lookup?
  rw [owner?_step ordered]
  cases own : (tree.scope index).find? name with
  | none =>
      cases tree.parent? index <;> simp
  | some binding => simp [own]

theorem Sees.le (ordered : tree.Ordered) {target : Nat} (sees : tree.Sees name index target) :
    target ≤ index := by
  induction sees with
  | here => exact Nat.le_refl _
  | outward _ above _ ih => exact Nat.le_trans ih (Nat.le_of_lt (ordered _ _ above))

theorem owner?_eq_some_iff (ordered : tree.Ordered) {owner : Nat} :
    tree.owner? index name = some owner ↔ tree.Nearest name index owner := by
  constructor
  · induction index using Nat.strongRecOn with
    | _ index ih =>
        intro found
        rw [owner?_step ordered] at found
        split at found
        · next binds =>
            cases found
            exact ⟨.here _, binds⟩
        · next free =>
            obtain ⟨parent, above, found⟩ := Option.bind_eq_some_iff.mp found
            obtain ⟨sees, binds⟩ := ih parent (ordered index parent above) found
            exact ⟨.outward free above sees, binds⟩
  · rintro ⟨sees, binds⟩
    induction sees with
    | here index =>
        rw [owner?_step ordered]
        exact if_pos binds
    | @outward index _ _ free above _ ih =>
        have none : ¬((tree.scope index).find? name).isSome := free
        rw [owner?_step ordered, if_neg none, above]
        exact ih binds

theorem owner?_eq_none_iff (ordered : tree.Ordered) :
    tree.owner? index name = none ↔ ∀ owner, ¬tree.Nearest name index owner := by
  rw [Option.eq_none_iff_forall_ne_some]
  exact forall_congr' fun owner => not_congr (owner?_eq_some_iff ordered)

theorem lookup?_define_seen (ordered : tree.Ordered) (known : index < tree.nodes.length)
    (binding : Binding α) {other : Nat} (sees : tree.Sees name other index) :
    (tree.define index name binding).lookup? other name = some binding := by
  induction sees with
  | here index =>
      rw [lookup?_step (ordered.define _ _ _), scope_define, if_pos ⟨rfl, known⟩,
        Scope.find?_define,
        if_pos rfl]
      rfl
  | @outward other parent index free above seen ih =>
      have before : index < other := Nat.lt_of_le_of_lt (seen.le ordered) (ordered _ _ above)
      have none : (tree.scope other).find? name = none := by
        simpa [Binds] using free
      rw [lookup?_step (ordered.define _ _ _), scope_define,
        if_neg (fun same => Nat.ne_of_lt before same.1), none, parent?_define, above]
      exact ih known

theorem lookup?_define_unseen (ordered : tree.Ordered) (binding : Binding α) {other : Nat}
    {seen : Text} (apart : ¬(seen = name ∧ tree.Sees name other index)) :
    (tree.define index name binding).lookup? other seen = tree.lookup? other seen := by
  induction other using Nat.strongRecOn with
  | _ other ih =>
      have own : ((tree.define index name binding).scope other).find? seen =
          (tree.scope other).find? seen := by
        rw [scope_define]
        split
        · next here =>
            obtain ⟨rfl, _⟩ := here
            rw [Scope.find?_define, if_neg fun same => apart ⟨same.symm, .here index⟩]
        · rfl
      rw [lookup?_step (ordered.define _ _ _), lookup?_step ordered, own, parent?_define]
      cases found : (tree.scope other).find? seen with
      | some => rfl
      | none =>
          cases above : tree.parent? other with
          | none => rfl
          | some parent =>
              refine ih parent (ordered other parent above) fun ⟨same, sees⟩ => apart ⟨same, ?_⟩
              subst same
              exact .outward (by simp [Binds, found]) above sees

theorem keys_define_other (tree : ScopeTree α) {other : Nat} (binding : Binding α)
    (apart : other ≠ index) : (tree.define index name binding).keys other = tree.keys other := by
  unfold keys
  rw [scope_define, if_neg fun same => apart same.1.symm]

theorem keys_define_own (known : index < tree.nodes.length) (binding : Binding α) :
    ((tree.define index name binding).keys index).Perm
      (if name ∈ tree.keys index then tree.keys index else name :: tree.keys index) := by
  unfold keys
  rw [scope_define, if_pos ⟨rfl, known⟩]
  exact Scope.keys_define (tree.scope index) name binding

theorem Binds.known (binds : tree.Binds index name) : index < tree.nodes.length := by
  refine Nat.lt_of_not_le fun beyond => ?_
  unfold Binds scope node? at binds
  rw [List.getElem?_eq_none beyond] at binds
  cases binds

/-- If a scope around binds the name, one of them is the nearest. -/
theorem Within.nearest {other : Nat} (within : tree.Within index other)
    (binds : tree.Binds other name) : ∃ owner, tree.Nearest name index owner := by
  induction within with
  | here index => exact ⟨index, .here index, binds⟩
  | @outward index _ _ above _ ih =>
      by_cases own : tree.Binds index name
      · exact ⟨index, .here index, own⟩
      · obtain ⟨owner, sees, bound⟩ := ih binds
        exact ⟨owner, .outward own above sees, bound⟩

theorem Sees.within {target : Nat} (sees : tree.Sees name index target) :
    tree.Within index target := by
  induction sees with
  | here index => exact .here index
  | outward _ above _ ih => exact .outward above ih

def Unbound (tree : ScopeTree α) (index : Nat) (name : Text) : Prop :=
  ∀ other, tree.Within index other → ¬tree.Binds other name

theorem Unbound.not_nearest (unbound : tree.Unbound index name) (owner : Nat) :
    ¬tree.Nearest name index owner :=
  fun nearest => unbound owner nearest.1.within nearest.2

theorem unbound_of_not_nearest (nowhere : ∀ owner, ¬tree.Nearest name index owner) :
    tree.Unbound index name := by
  intro other within binds
  obtain ⟨owner, nearest⟩ := within.nearest binds
  exact nowhere owner nearest

theorem Nearest.unique (ordered : tree.Ordered) {owner other : Nat}
    (nearest : tree.Nearest name index owner) (again : tree.Nearest name index other) :
    owner = other :=
  Option.some.inj (((owner?_eq_some_iff ordered).mpr nearest).symm.trans
    ((owner?_eq_some_iff ordered).mpr again))

def Fixed (tree : ScopeTree α) (index : Nat) (name : Text) : Prop :=
  ∃ owner binding, tree.Nearest name index owner ∧
    (tree.scope owner).find? name = some binding ∧ binding.constant = true

theorem assign_error_iff (ordered : tree.Ordered) (value : α) (cause : BindingError) :
    tree.assign index name value = .error cause ↔
      cause = .undefined name ∧ tree.Unbound index name ∨
        cause = .constant name ∧ tree.Fixed index name := by
  unfold assign lookup?
  cases found : tree.owner? index name with
  | none =>
      have unbound := unbound_of_not_nearest ((owner?_eq_none_iff ordered).mp found)
      have free : ¬tree.Fixed index name := fun ⟨owner, _, nearest, _⟩ =>
        unbound.not_nearest owner nearest
      simp [unbound, free, eq_comm]
  | some owner =>
      have nearest := (owner?_eq_some_iff ordered).mp found
      obtain ⟨binding, bound⟩ := Option.isSome_iff_exists.mp nearest.2
      have fixed : tree.Fixed index name ↔ binding.constant = true := by
        constructor
        · rintro ⟨other, same, again, boundAgain, constant⟩
          rw [← nearest.unique ordered again, bound] at boundAgain
          cases boundAgain
          exact constant
        · exact fun constant => ⟨owner, binding, nearest, bound, constant⟩
      have somewhere : ¬tree.Unbound index name := fun unbound => unbound.not_nearest owner nearest
      simp only [Option.bind_some, bound, fixed]
      cases binding.constant <;> simp [somewhere, eq_comm]

/-- The tree after an assignment. One that fails leaves it as it was. -/
def assigned (tree : ScopeTree α) (index : Nat) (name : Text) (value : α) : ScopeTree α :=
  (tree.assign index name value).toOption.getD tree

/-- What an assignment from a scope does, seen from every scope. -/
structure AssignLaw (tree : ScopeTree α) (index : Nat) (name : Text) (value : α) : Prop where
  fails : ∀ cause, tree.assign index name value = .error cause ↔
    cause = .undefined name ∧ tree.Unbound index name ∨
      cause = .constant name ∧ tree.Fixed index name
  failed : ∀ cause, tree.assign index name value = .error cause → ∀ other seen,
    (tree.assigned index name value).get other seen = tree.get other seen ∧
      (tree.assigned index name value).lookup? other seen = tree.lookup? other seen
  shared : ∀ owner, tree.Nearest name index owner → ¬tree.Fixed index name →
    ∀ other, tree.Nearest name other owner →
      (tree.assigned index name value).get other name = .ok value
  apart : ∀ owner, tree.Nearest name index owner → ¬tree.Fixed index name →
    ∀ other seen, ¬(seen = name ∧ tree.Nearest name other owner) →
      (tree.assigned index name value).get other seen = tree.get other seen
  flags : ∀ other seen, ((tree.assigned index name value).lookup? other seen).map (·.constant) =
    (tree.lookup? other seen).map (·.constant)
  keys : ∀ other, (tree.assigned index name value).keys other = tree.keys other

/-- What a definition in a scope does, seen from every scope. -/
structure DefineLaw (tree : ScopeTree α) (index : Nat) (name : Text) (binding : Binding α) :
    Prop where
  shown : ∀ other, tree.Sees name other index →
    (tree.define index name binding).lookup? other name = some binding
  apart : ∀ other seen, ¬(seen = name ∧ tree.Sees name other index) →
    (tree.define index name binding).lookup? other seen = tree.lookup? other seen
  keys : ((tree.define index name binding).keys index).Perm
    (if name ∈ tree.keys index then tree.keys index else name :: tree.keys index)
  keysApart : ∀ other, other ≠ index →
    (tree.define index name binding).keys other = tree.keys other

theorem define_law (ordered : tree.Ordered) (known : index < tree.nodes.length) (name : Text)
    (binding : Binding α) : tree.DefineLaw index name binding where
  shown _ sees := lookup?_define_seen ordered known binding sees
  apart _ _ apart := lookup?_define_unseen ordered binding apart
  keys := keys_define_own known binding
  keysApart _ apart := keys_define_other tree binding apart

theorem get_of_lookup? {other : ScopeTree α} {place : Nat} {seen : Text}
    (same : other.lookup? place seen = tree.lookup? place seen) :
    other.get place seen = tree.get place seen := by
  unfold get
  rw [same]

/-- An assignment fails and changes nothing, or replaces the nearest binding and keeps its flag. -/
theorem assigned_cases (ordered : tree.Ordered) (index : Nat) (name : Text) (value : α) :
    (∃ cause, tree.assign index name value = .error cause ∧
      tree.assigned index name value = tree) ∨
    ∃ owner binding, tree.Nearest name index owner ∧
      (tree.scope owner).find? name = some binding ∧
      tree.assigned index name value = tree.define owner name { binding with value } := by
  unfold assigned
  cases result : tree.assign index name value with
  | error cause => exact .inl ⟨cause, rfl, rfl⟩
  | ok after =>
      obtain ⟨owner, binding, found, bound, _, same⟩ := assign_ok result
      exact .inr ⟨owner, binding, (owner?_eq_some_iff ordered).mp found, bound, same⟩

theorem assigned_of_nearest (ordered : tree.Ordered) {owner : Nat}
    (nearest : tree.Nearest name index owner) (free : ¬tree.Fixed index name) (value : α) :
    ∃ binding : Binding α,
      tree.assigned index name value = tree.define owner name { binding with value } := by
  rcases assigned_cases ordered index name value with
    ⟨cause, failed, _⟩ | ⟨other, binding, again, _, same⟩
  · rcases (assign_error_iff ordered value cause).mp failed with ⟨_, unbound⟩ | ⟨_, fixed⟩
    · exact absurd nearest (unbound.not_nearest owner)
    · exact absurd fixed free
  · cases nearest.unique ordered again
    exact ⟨binding, same⟩

theorem lookup?_of_nearest (ordered : tree.Ordered) {owner : Nat}
    (nearest : tree.Nearest name index owner) :
    tree.lookup? index name = (tree.scope owner).find? name := by
  rw [lookup?, (owner?_eq_some_iff ordered).mpr nearest]
  rfl

theorem flags_assigned (ordered : tree.Ordered) (index : Nat) (name : Text) (value : α)
    (other : Nat) (seen : Text) :
    ((tree.assigned index name value).lookup? other seen).map (·.constant) =
      (tree.lookup? other seen).map (·.constant) := by
  rcases assigned_cases ordered index name value with
    ⟨_, _, same⟩ | ⟨owner, binding, nearest, bound, same⟩
  · rw [same]
  · rw [same]
    by_cases here : seen = name ∧ tree.Sees name other owner
    · obtain ⟨rfl, sees⟩ := here
      rw [lookup?_define_seen ordered nearest.2.known _ sees,
        lookup?_of_nearest ordered ⟨sees, nearest.2⟩, bound]
      rfl
    · rw [lookup?_define_unseen ordered _ here]

theorem keys_assigned (ordered : tree.Ordered) (index : Nat) (name : Text) (value : α)
    (other : Nat) : (tree.assigned index name value).keys other = tree.keys other := by
  rcases assigned_cases ordered index name value with
    ⟨_, _, same⟩ | ⟨owner, binding, nearest, bound, same⟩
  · rw [same]
  · rw [same, keys, scope_define]
    split
    · next here =>
        obtain ⟨rfl, _⟩ := here
        rw [Scope.keys, Scope.names_define, if_pos (Scope.mem_names_of_find? bound)]
        rfl
    · rfl

theorem assign_law (ordered : tree.Ordered) (index : Nat) (name : Text) (value : α) :
    tree.AssignLaw index name value where
  fails := assign_error_iff ordered value
  failed cause failed other seen := by
    rw [assigned, failed]
    exact ⟨rfl, rfl⟩
  shared owner nearest free other sees := by
    obtain ⟨binding, same⟩ := assigned_of_nearest ordered nearest free value
    rw [same, get, lookup?_define_seen ordered nearest.2.known _ sees.1]
  apart owner nearest free other seen apart := by
    obtain ⟨binding, same⟩ := assigned_of_nearest ordered nearest free value
    rw [same]
    refine get_of_lookup? (lookup?_define_unseen ordered _ fun ⟨named, sees⟩ => ?_)
    exact apart ⟨named, sees, nearest.2⟩
  flags := flags_assigned ordered index name value
  keys := keys_assigned ordered index name value

def chain (tree : ScopeTree α) (index : Nat) : Chain α :=
  tree.scope index ::
    match tree.parent? index with
    | none => []
    | some parent => if parent < index then tree.chain parent else []
termination_by index

theorem chain_of_root (root : tree.parent? index = none) :
    tree.chain index = [tree.scope index] := by
  rw [chain, root]

theorem chain_of_parent (ordered : tree.Ordered) {parent : Nat}
    (above : tree.parent? index = some parent) :
    tree.chain index = tree.scope index :: tree.chain parent := by
  rw [chain, above]
  exact congrArg _ (if_pos (ordered index parent above))

theorem find?_chain (ordered : tree.Ordered) (index : Nat) (name : Text) :
    (tree.chain index).find? name = tree.lookup? index name := by
  induction index using Nat.strongRecOn with
  | _ index ih =>
      rw [lookup?_step ordered]
      cases above : tree.parent? index with
      | none =>
          rw [chain_of_root above, Chain.find?]
          cases (tree.scope index).find? name <;> rfl
      | some parent =>
          rw [chain_of_parent ordered above, Chain.find?, ih parent (ordered index parent above)]
          cases (tree.scope index).find? name <;> rfl

theorem chain_congr {other : ScopeTree α} (ordered : tree.Ordered) (orderedOther : other.Ordered)
    (parents : ∀ place ≤ index, other.parent? place = tree.parent? place)
    (scopes : ∀ place ≤ index, other.scope place = tree.scope place) :
    other.chain index = tree.chain index := by
  induction index using Nat.strongRecOn with
  | _ index ih =>
      have same := parents index (Nat.le_refl index)
      cases above : tree.parent? index with
      | none =>
          rw [chain_of_root above, chain_of_root (same.trans above),
            scopes index (Nat.le_refl index)]
      | some parent =>
          have before := ordered index parent above
          rw [chain_of_parent ordered above, chain_of_parent orderedOther (same.trans above),
            scopes index (Nat.le_refl index), ih parent before]
          · exact fun place under => parents place (Nat.le_trans under (Nat.le_of_lt before))
          · exact fun place under => scopes place (Nat.le_trans under (Nat.le_of_lt before))

theorem chain_define_above (ordered : tree.Ordered) (binding : Binding α) {other : Nat}
    (before : other < index) : (tree.define index name binding).chain other = tree.chain other := by
  refine chain_congr ordered (ordered.define _ _ _) (fun _ _ => parent?_define _ _ _ _ _) ?_
  intro place under
  rw [scope_define, if_neg fun same => by omega]

theorem chain_define (ordered : tree.Ordered) (known : index < tree.nodes.length) (name : Text)
    (binding : Binding α) :
    (tree.define index name binding).chain index = (tree.chain index).define name binding := by
  have own : (tree.define index name binding).scope index =
      (tree.scope index).define name binding := by
    rw [scope_define, if_pos ⟨rfl, known⟩]
  have same := parent?_define tree index name binding index
  cases above : tree.parent? index with
  | none => rw [chain_of_root above, chain_of_root (same.trans above), own, Chain.define]
  | some parent =>
      rw [chain_of_parent ordered above, chain_of_parent (ordered.define _ _ _) (same.trans above),
        own, chain_define_above ordered binding (ordered index parent above), Chain.define]

theorem chain_define_seen (ordered : tree.Ordered) {owner : Nat} {binding : Binding α}
    (sees : tree.Sees name index owner) (bound : (tree.scope owner).find? name = some binding)
    (value : α) :
    (tree.define owner name { binding with value }).chain index =
      (tree.chain index).set name value := by
  induction sees with
  | here index =>
      have binds : tree.Binds index name := Option.isSome_iff_exists.mpr ⟨binding, bound⟩
      rw [chain_define ordered binds.known, chain, Chain.define, Chain.set, bound]
  | @outward index parent owner free above sees ih =>
      have apart : owner ≠ index := by
        have under := sees.le ordered
        have before := ordered index parent above
        omega
      have none : (tree.scope index).find? name = none := by
        simpa [Binds] using free
      rw [chain_of_parent ordered above,
        chain_of_parent (ordered.define _ _ _) ((parent?_define _ _ _ _ _).trans above),
        scope_define, if_neg fun same => apart same.1, ih bound, Chain.set, none]

theorem chain_assign (ordered : tree.Ordered) (index : Nat) (name : Text) (value : α) :
    (tree.assign index name value).map (·.chain index) = (tree.chain index).assign name value := by
  unfold assign Chain.assign
  rw [find?_chain ordered]
  cases found : tree.owner? index name with
  | none =>
      rw [lookup?, found]
      rfl
  | some owner =>
      have nearest := (owner?_eq_some_iff ordered).mp found
      obtain ⟨binding, bound⟩ := Option.isSome_iff_exists.mp nearest.2
      rw [lookup?_of_nearest ordered nearest, bound]
      dsimp only
      split
      · rfl
      · exact congrArg Except.ok (chain_define_seen ordered nearest.1 bound value)

theorem node?_extend {parent : Nat} {other : Nat} (known : other < tree.nodes.length) :
    (tree.extend parent).2.node? other = tree.node? other :=
  List.getElem?_append_left known

theorem chain_extend (built : tree.Built) (known : index < tree.nodes.length) :
    (tree.extend index).2.chain (tree.extend index).1 = [] :: tree.chain index := by
  have fresh : (tree.extend index).2.node? (tree.extend index).1 = some ⟨[], some index⟩ :=
    List.getElem?_concat_length
  have above : (tree.extend index).2.parent? (tree.extend index).1 = some index := by
    rw [parent?, fresh]
    rfl
  have ordered := (built.extend known).ordered
  have empty : (tree.extend index).2.scope (tree.extend index).1 = [] := by
    rw [scope, fresh]
    rfl
  have old : (tree.extend index).2.chain index = tree.chain index := by
    refine chain_congr built.ordered ordered ?_ ?_
    · intro place under
      rw [parent?, parent?, node?_extend (Nat.lt_of_le_of_lt under known)]
    · intro place under
      rw [scope, scope, node?_extend (Nat.lt_of_le_of_lt under known)]
  rw [chain_of_parent ordered above, empty, old]

/-- Seen from one of its scopes, a tree changes as the chain does on which a program is run. -/
structure ChainLaw (tree : ScopeTree α) (index : Nat) (name : Text) (value : α)
    (binding : Binding α) : Prop where
  lookup : tree.lookup? index name = (tree.chain index).find? name
  define : (tree.define index name binding).chain index = (tree.chain index).define name binding
  assign : (tree.assign index name value).map (·.chain index) =
    (tree.chain index).assign name value
  extend : (tree.extend index).2.chain (tree.extend index).1 = [] :: tree.chain index

theorem chain_law (built : tree.Built) (known : index < tree.nodes.length) (name : Text)
    (value : α) (binding : Binding α) : tree.ChainLaw index name value binding where
  lookup := (find?_chain built.ordered index name).symm
  define := chain_define built.ordered known name binding
  assign := chain_assign built.ordered index name value
  extend := chain_extend built known

/-- Whoever looks for a name finds what was assigned or defined last in the nearest scope that binds
it: in every tree that can come about, an assignment shows exactly where its binding is the nearest,
a definition exactly where nothing nearer hides it, and a constant is never assigned to. A program
that is run on the scopes from one outward sees the same changes. -/
theorem changes_visible {tree : ScopeTree α} (built : tree.Built) {index : Nat}
    (known : index < tree.nodes.length) (name : Text) (value : α) (binding : Binding α) :
    tree.AssignLaw index name value ∧ tree.DefineLaw index name binding ∧
      tree.ChainLaw index name value binding :=
  ⟨assign_law built.ordered index name value, define_law built.ordered known name binding,
    chain_law built known name value binding⟩

/-- The first scope and two children; one of them has a variable that hides the constant of the
first. -/
def siblings : ScopeTree Nat :=
  (((new.define 0 (text "x") ⟨1, true⟩).extend 0).2.extend 0).2.define 1 (text "x") ⟨2, false⟩

theorem changes_visible_siblings : siblings.Built ∧ 1 < siblings.nodes.length ∧
    (siblings.assigned 1 (text "x") 3).get 1 (text "x") = .ok 3 ∧
    (siblings.assigned 1 (text "x") 3).get 2 (text "x") = siblings.get 2 (text "x") ∧
    (siblings.define 0 (text "x") ⟨4, false⟩).lookup? 2 (text "x") = some ⟨4, false⟩ := by
  have built : siblings.Built :=
    ((((Built.new.define 0 _ _).extend (by decide)).extend (by decide)).define 1 _ _)
  have known : 0 < siblings.nodes.length ∧ 1 < siblings.nodes.length := by decide
  have nearest : siblings.Nearest (text "x") 1 1 := ⟨.here 1, by unfold Binds; decide⟩
  have above : siblings.Sees (text "x") 2 0 :=
    .outward (by unfold Binds; decide) (by decide) (.here 0)
  have assignable : ¬siblings.Fixed 1 (text "x") := by
    rintro ⟨owner, binding, again, bound, constant⟩
    cases nearest.unique built.ordered again
    cases bound
    cases constant
  have hidden : ¬siblings.Sees (text "x") 2 1 := by
    rintro (_ | ⟨_, above, sees⟩)
    cases above
    rcases sees with _ | ⟨_, above, _⟩
    cases above
  obtain ⟨assigns, _⟩ := changes_visible built known.2 (text "x") 3 ⟨0, false⟩
  obtain ⟨_, defines, _⟩ := changes_visible built known.1 (text "x") 3 ⟨4, false⟩
  refine ⟨built, known.2, assigns.shared 1 nearest assignable 1 nearest, ?_, defines.shown 2 above⟩
  exact assigns.apart 1 nearest assignable 2 (text "x") fun ⟨_, sees, _⟩ => hidden sees

end ScopeTree
end Rover
