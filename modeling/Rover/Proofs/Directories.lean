import Mathlib.Data.List.Iterate
import Mathlib.Logic.Function.Iterate
import Rover.File.Path

/-!
Absolute paths and the names along them. A clean absolute path is the list of the names on the way
from the root, and its parent is the path without the last of them, so from every directory the root
is reached, and the root is the only directory that is its own parent.
-/

namespace Rover

namespace Text

variable {separator : UInt8} {part : Text}

theorem splitOn_ne_nil (separator : UInt8) (bytes : Text) : splitOn separator bytes ≠ [] := by
  cases bytes with
  | nil => nofun
  | cons byte rest =>
      unfold splitOn
      split
      · nofun
      · split <;> nofun

theorem not_mem_of_splitOn {bytes : Text} (member : part ∈ splitOn separator bytes) :
    separator ∉ part := by
  induction bytes generalizing part with
  | nil =>
      obtain rfl := List.mem_singleton.mp member
      exact List.not_mem_nil
  | cons byte rest ih =>
      unfold splitOn at member
      split at member
      · obtain rfl | later := List.mem_cons.mp member
        · exact List.not_mem_nil
        · exact ih later
      · next other =>
          split at member
          · next none => exact absurd none (splitOn_ne_nil separator rest)
          · next first others same =>
              obtain rfl | later := List.mem_cons.mp member
              · refine List.not_mem_cons_of_ne_of_not_mem (Ne.symm other) (ih ?_)
                rw [same]
                exact List.mem_cons_self
              · refine ih ?_
                rw [same]
                exact List.mem_cons_of_mem _ later

theorem splitOn_append (whole : separator ∉ part) (rest : Text) :
    splitOn separator (part ++ separator :: rest) = part :: splitOn separator rest := by
  induction part with
  | nil => rw [List.nil_append, splitOn, if_pos rfl]
  | cons byte part ih =>
      obtain ⟨other, whole⟩ := List.ne_and_not_mem_of_not_mem_cons whole
      rw [List.cons_append, splitOn, if_neg (Ne.symm other), ih whole]

theorem splitOn_self (whole : separator ∉ part) : splitOn separator part = [part] := by
  induction part with
  | nil => rfl
  | cons byte part ih =>
      obtain ⟨other, whole⟩ := List.ne_and_not_mem_of_not_mem_cons whole
      rw [splitOn, if_neg (Ne.symm other), ih whole]

end Text

namespace Path

/-- What a file in a directory can be called. -/
structure IsName (part : Text) : Prop where
  nonempty : part ≠ []
  not_dot : part ≠ dot
  not_dots : part ≠ dots
  whole : slash ∉ part

def trail (parts : List Text) : Text :=
  parts.flatMap (slash :: ·)

variable {parts before : List Text} {part path : Text}

theorem splitOn_trail (whole : ∀ each ∈ part :: parts, slash ∉ each) :
    Text.splitOn slash (part ++ trail parts) = part :: parts := by
  obtain ⟨here, later⟩ := List.forall_mem_cons.mp whole
  induction parts generalizing part with
  | nil =>
      rw [trail, List.flatMap_nil, List.append_nil]
      exact Text.splitOn_self here
  | cons next parts ih =>
      have split : trail (next :: parts) = slash :: (next ++ trail parts) := List.flatMap_cons
      have rest := List.forall_mem_cons.mp later
      rw [split, Text.splitOn_append here, ih later rest.1 rest.2]

theorem trail_concat (parts : List Text) (last : Text) :
    trail (parts ++ [last]) = trail parts ++ slash :: last := by
  rw [trail, trail, List.flatMap_append, List.flatMap_singleton]

theorem slash_join (first : Text) (rest : List Text) :
    slash :: Text.join (text "/") (first :: rest) = trail (first :: rest) := by
  induction rest generalizing first with
  | nil => rw [Text.join, trail, List.flatMap_singleton]
  | cons second rest ih =>
      have later := ih second
      rw [Text.join, List.append_assoc]
      show slash :: (first ++ slash :: Text.join (text "/") (second :: rest)) = _
      rw [later]
      rfl

theorem ofParts_eq_trail (nonempty : parts ≠ []) : ofParts true parts = trail parts := by
  obtain ⟨first, rest, rfl⟩ := List.exists_cons_of_ne_nil nonempty
  exact slash_join first rest

theorem isAbsolute_append (absolute : isAbsolute path = true) (rest : Text) :
    isAbsolute (path ++ rest) = true := by
  cases path with
  | nil => cases absolute
  | cons byte path => exact absolute

theorem parts_trail (nonempty : parts ≠ []) (whole : ∀ each ∈ parts, slash ∉ each) :
    Path.parts (trail parts) = (parts.foldl (step true) []).reverse := by
  have absolute : isAbsolute (trail parts) = true := by
    obtain ⟨first, rest, rfl⟩ := List.exists_cons_of_ne_nil nonempty
    rfl
  have slashes : ∀ each ∈ [] :: parts, slash ∉ each :=
    List.forall_mem_cons.mpr ⟨List.not_mem_nil, whole⟩
  have split : Text.splitOn slash (trail parts) = [] :: parts := splitOn_trail slashes
  rw [Path.parts, absolute, split]
  rfl

theorem step_name (name : IsName part) (absolute : Bool) (before : List Text) :
    step absolute before part = part :: before := by
  unfold step
  rw [if_neg, if_neg]
  · simpa using name.not_dots
  · simpa using ⟨name.nonempty, name.not_dot⟩

theorem foldl_names (names : ∀ each ∈ parts, IsName each) (absolute : Bool) (before : List Text) :
    parts.foldl (step absolute) before = parts.reverse ++ before := by
  induction parts generalizing before with
  | nil => rfl
  | cons first rest ih =>
      obtain ⟨here, later⟩ := List.forall_mem_cons.mp names
      rw [List.foldl_cons, step_name here, ih later, List.reverse_cons, List.append_assoc]
      rfl

theorem names_step (names : ∀ each ∈ before, IsName each) (whole : slash ∉ part) :
    ∀ each ∈ step true before part, IsName each := by
  unfold step
  split
  · exact names
  · next used =>
      simp only [Bool.or_eq_true, List.isEmpty_iff, beq_iff_eq, not_or] at used
      split
      · split
        · next last rest =>
            obtain ⟨here, later⟩ := List.forall_mem_cons.mp names
            rw [if_neg (by simpa using here.not_dots)]
            exact later
        · exact names
      · next up =>
          exact List.forall_mem_cons.mpr ⟨⟨used.1, used.2, by simpa using up, whole⟩, names⟩

theorem names_foldl (whole : ∀ each ∈ parts, slash ∉ each) (names : ∀ each ∈ before, IsName each) :
    ∀ each ∈ parts.foldl (step true) before, IsName each := by
  induction parts generalizing before with
  | nil => exact names
  | cons first rest ih =>
      obtain ⟨here, later⟩ := List.forall_mem_cons.mp whole
      exact ih later (names_step names here)

theorem names_parts (absolute : isAbsolute path = true) :
    ∀ each ∈ Path.parts path, IsName each := by
  intro each member
  rw [Path.parts, absolute, List.mem_reverse] at member
  exact names_foldl (fun _ => Text.not_mem_of_splitOn) (List.forall_mem_nil _) each member

/-- The path of a directory, by the names on the way to it from the root. -/
structure Directory (path : Text) (names : List Text) : Prop where
  named : ∀ name ∈ names, IsName name
  shown : path = ofParts true names

theorem directory_clean (absolute : isAbsolute path = true) :
    Directory (clean path) (Path.parts path) :=
  ⟨names_parts absolute, by rw [clean, absolute]⟩

/-- From an absolute directory every path leads to a directory, which may or may not be there. -/
theorem directory_absolute {directory : Text} (absolute : isAbsolute directory = true)
    (path : Text) : ∃ names, Directory (Path.absolute directory path) names := by
  unfold Path.absolute
  split
  · next whole => exact ⟨_, directory_clean whole⟩
  · have nonempty : directory.isEmpty = false := by
      cases directory with
      | nil => cases absolute
      | cons => rfl
    unfold join
    rw [nonempty]
    split
    · contradiction
    · split
      · exact ⟨_, directory_clean absolute⟩
      · exact ⟨_, directory_clean (isAbsolute_append (isAbsolute_append absolute _) _)⟩

namespace Directory

variable {names : List Text}

theorem ne_nil (directory : Directory path names) : path ≠ [] := by
  rw [directory.shown]
  nofun

theorem parts_eq (directory : Directory path names) : Path.parts path = names := by
  rw [directory.shown]
  by_cases root : names = []
  · subst root
    decide
  · have wholes := fun each member => (directory.named each member).whole
    rw [ofParts_eq_trail root, parts_trail root wholes, foldl_names directory.named,
      List.append_nil, List.reverse_reverse]

theorem up_to_slash (names : List Text) {last : Text} (whole : slash ∉ last) :
    ((trail (names ++ [last])).reverse.dropWhile (· != slash)).reverse = trail (names ++ [[]]) := by
  have before : ∀ byte ∈ last.reverse, (byte != slash) = true := by
    intro byte member
    rw [bne_iff_ne]
    rintro rfl
    exact whole (List.mem_reverse.mp member)
  rw [trail_concat, List.reverse_append, List.reverse_cons, List.append_assoc,
    List.dropWhile_append_of_pos before, List.singleton_append,
    List.dropWhile_cons_of_neg (by simp), List.reverse_cons, List.reverse_reverse, trail_concat]

theorem parent (directory : Directory path names) :
    Directory (Path.parent path) names.dropLast := by
  have kept : ∀ name ∈ names.dropLast, IsName name :=
    fun name member => directory.named name (List.dropLast_subset names member)
  refine ⟨kept, ?_⟩
  rw [directory.shown]
  obtain rfl | ⟨others, last, rfl⟩ := List.eq_nil_or_concat names
  · decide
  · rw [List.concat_eq_append] at directory kept ⊢
    have whole := (directory.named last (List.mem_append_right _ List.mem_cons_self)).whole
    rw [List.dropLast_concat] at kept ⊢
    have slashes : ∀ each ∈ others ++ [[]], slash ∉ each := by
      intro each member
      obtain here | here := List.mem_append.mp member
      · exact (kept each here).whole
      · rw [List.mem_singleton.mp here]
        exact List.not_mem_nil
    -- Up to its last slash the path has an empty part at its end, which cleaning drops.
    have absolute : isAbsolute (trail (others ++ [[]])) = true := by
      cases others <;> rfl
    rw [ofParts_eq_trail (List.append_ne_nil_of_right_ne_nil _ (List.cons_ne_nil _ _)), Path.parent,
      up_to_slash others whole, clean, absolute,
      parts_trail (List.append_ne_nil_of_right_ne_nil _ (List.cons_ne_nil _ _)) slashes,
      List.foldl_append, foldl_names kept]
    show ofParts true (others.reverse ++ []).reverse = _
    rw [List.append_nil, List.reverse_reverse]

theorem iterate_parent (directory : Directory path names) (count : Nat) :
    Directory (Path.parent^[count] path) (names.take (names.length - count)) := by
  induction count with
  | zero =>
      rw [Nat.sub_zero, List.take_length]
      exact directory
  | succ count ih =>
      have up := ih.parent
      rw [← Function.iterate_succ_apply' (f := Path.parent), List.dropLast_eq_take, List.take_take,
        List.length_take] at up
      rwa [show names.length - (count + 1) =
        min (min (names.length - count) names.length - 1) (names.length - count) by omega]

/-- The root alone is its own parent. -/
theorem parent_eq_self_iff (directory : Directory path names) :
    Path.parent path = path ↔ names = [] := by
  constructor
  · intro same
    have parts := directory.parent.parts_eq
    rw [same, directory.parts_eq] at parts
    have lengths := congrArg List.length parts
    rw [List.length_dropLast] at lengths
    exact List.eq_nil_of_length_eq_zero (by omega)
  · rintro rfl
    rw [directory.shown]
    decide

theorem iterate_parent_eq_iff (directory : Directory path names) (count : Nat) :
    Path.parent^[count + 1] path = Path.parent^[count] path ↔ names.length ≤ count := by
  rw [Function.iterate_succ_apply', (directory.iterate_parent count).parent_eq_self_iff,
    List.take_eq_nil_iff]
  constructor
  · rintro (none | rfl)
    · omega
    · exact Nat.zero_le count
  · exact fun far => .inl (by omega)

end Directory

end Path
end Rover
