import Rover.Config.Document
import Rover.Proofs.Directories

/-!
Where the settings come from. The search for a file of settings goes from a directory to its parent
until it reaches the root, and ends at the first directory in which there is such a file, or in
which it cannot be told whether there is one. If it ends at neither, the settings are the defaults.
-/

namespace Rover
namespace Config

def candidate (place : Text) : Text :=
  Path.join place fileName

def origin (files : Files Id) (directory start : Text) : Text :=
  match files.stat (Path.absolute directory start) with
  | .ok .file => Path.parent (Path.absolute directory start)
  | _ => Path.absolute directory start

/-- The directories of a search, from the first one upwards. -/
def level (files : Files Id) (directory start : Text) (count : Nat) : Text :=
  Path.parent^[count] (origin files directory start)

/-- There is no file of settings in a directory, so that the search goes on above it. -/
def Passed (files : Files Id) (place : Text) : Prop :=
  files.stat (candidate place) = .ok .directory ∨ files.stat (candidate place) = .error .notFound

inductive Stops (files : Files Id) (place : Text) : Except ConfigError Text → Prop where
  | found (here : files.stat (candidate place) = .ok .file) : Stops files place
    (.ok (candidate place))
  | failed {error : FileError} (here : files.stat (candidate place) = .error error)
      (unknown : error ≠ .notFound) :
      Stops files place (.error (.unsearched ⟨text "stat", candidate place, error⟩))

section Search

variable {files : Files Id} {last : Nat} {place start : Text} {result : Except ConfigError Text}

theorem Stops.unique {other : Except ConfigError Text} (stops : Stops files place result)
    (again : Stops files place other) : result = other := by
  cases stops with
  | found here =>
      cases again with
      | found => rfl
      | failed here' => cases here.symm.trans here'
  | failed here =>
      cases again with
      | found here' => cases here.symm.trans here'
      | failed here' =>
          cases here.symm.trans here'
          rfl

theorem Stops.not_passed (stops : Stops files place result) : ¬Passed files place := by
  rintro (passed | passed)
  · cases stops with
    | found here => cases here.symm.trans passed
    | failed here => cases here.symm.trans passed
  · cases stops with
    | found here => cases here.symm.trans passed
    | failed here unknown =>
        cases here.symm.trans passed
        exact unknown rfl

theorem stops_or_passed (files : Files Id) (place : Text) :
    (∃ result, Stops files place result) ∨ Passed files place := by
  cases here : files.stat (candidate place) with
  | ok kind =>
      cases kind with
      | file => exact .inl ⟨_, .found here⟩
      | directory => exact .inr (.inl here)
  | error error =>
      by_cases absent : error = .notFound
      · exact .inr (.inr (absent ▸ here))
      · exact .inl ⟨_, .failed here absent⟩

theorem search_cons (files : Files Id) (start place : Text) (others : List Text) :
    search files start (place :: others) =
      match files.stat (candidate place) with
      | .ok .file => .ok (candidate place)
      | .ok .directory | .error .notFound => search files start others
      | .error error => .error (.unsearched ⟨text "stat", candidate place, error⟩) :=
  rfl

theorem search_of_passed (passed : Passed files place) (others : List Text) :
    search files start (place :: others) = search files start others := by
  rw [search_cons]
  obtain here | here := passed <;> rw [here]

theorem search_of_stops (stops : Stops files place result) (others : List Text) :
    search files start (place :: others) = result := by
  rw [search_cons]
  cases stops with
  | found here => rw [here]
  | @failed error here unknown =>
      rw [here]
      cases error with
      | notFound => exact absurd rfl unknown
      | _ => rfl

/-- The search ends in one of the directories on the way up, having passed those before it, or
passes them all. -/
def Ends (files : Files Id) (start place : Text) (last : Nat) (result : Except ConfigError Text) :
    Prop :=
  (∃ count ≤ last, Stops files (Path.parent^[count] place) result ∧
      ∀ earlier < count, Passed files (Path.parent^[earlier] place)) ∨
    result = .error (.notFound start) ∧ ∀ count ≤ last, Passed files (Path.parent^[count] place)

theorem ends_of_stops (stops : Stops files place result) (last : Nat) :
    Ends files start place last result :=
  .inl ⟨0, Nat.zero_le last, stops, fun _ before => absurd before (Nat.not_lt_zero _)⟩

theorem ends_of_passed (passed : Passed files place)
    (ends : Ends files start (Path.parent place) last result) :
    Ends files start place (last + 1) result := by
  obtain ⟨count, inside, stops, before⟩ | ⟨rfl, all⟩ := ends
  · refine .inl ⟨count + 1, Nat.succ_le_succ inside, stops, fun earlier less => ?_⟩
    cases earlier with
    | zero => exact passed
    | succ earlier => exact before earlier (Nat.lt_of_succ_lt_succ less)
  · refine .inr ⟨rfl, fun count inside => ?_⟩
    cases count with
    | zero => exact passed
    | succ count => exact all count (Nat.le_of_succ_le_succ inside)

theorem search_ends (files : Files Id) (start place : Text) (last : Nat) :
    Ends files start place last
      (search files start (List.iterate Path.parent place (last + 1))) := by
  -- The list grows at its end, but the search meets its start first, so the place is left open.
  induction last generalizing place with
  | zero =>
      obtain ⟨result, stops⟩ | passed := stops_or_passed files place
      · rw [List.iterate, search_of_stops stops]
        exact ends_of_stops stops 0
      · rw [List.iterate, search_of_passed passed]
        exact .inr ⟨rfl, fun count inside => Nat.le_zero.mp inside ▸ passed⟩
  | succ last ih =>
      obtain ⟨result, stops⟩ | passed := stops_or_passed files place
      · rw [List.iterate, search_of_stops stops]
        exact ends_of_stops stops (last + 1)
      · rw [List.iterate, search_of_passed passed]
        exact ends_of_passed passed (ih (Path.parent place))

theorem Ends.unique {other : Except ConfigError Text} (ends : Ends files start place last result)
    (again : Ends files start place last other) : result = other := by
  obtain ⟨count, inside, stops, before⟩ | ⟨rfl, all⟩ := ends
  · obtain ⟨count', inside', stops', before'⟩ | ⟨rfl, all⟩ := again
    · obtain less | rfl | more := Nat.lt_trichotomy count count'
      · exact absurd (before' count less) stops.not_passed
      · exact stops.unique stops'
      · exact absurd (before count' more) stops'.not_passed
    · exact absurd (all count inside) stops.not_passed
  · obtain ⟨count, inside, stops, -⟩ | ⟨rfl, -⟩ := again
    · exact absurd (all count inside) stops.not_passed
    · rfl

theorem upward_eq {names : List Text} (directory : Path.Directory place names) :
    upward names = List.iterate Path.parent place (names.length + 1) := by
  refine List.ext_getElem (by simp [upward]) fun count inside _ => ?_
  rw [List.getElem_iterate, (directory.iterate_parent count).shown]
  simp only [upward, List.getElem_map, List.getElem_reverse, List.getElem_range, List.length_range]
  rw [Nat.add_sub_cancel]

end Search

section Resolve

variable {files : Files Id} {directory start path : Text} {config : Config}
  {result : Except ConfigError Text}

theorem origin_directory (files : Files Id) (absolute : Path.isAbsolute directory = true)
    (start : Text) : ∃ names, Path.Directory (origin files directory start) names := by
  obtain ⟨names, whole⟩ := Path.directory_absolute absolute start
  unfold origin
  split
  · exact ⟨_, whole.parent⟩
  · exact ⟨_, whole⟩

theorem find_eq (files : Files Id) (directory start : Text) :
    find files directory start =
      search files (origin files directory start)
        (upward (Path.parts (origin files directory start))) := by
  unfold find origin
  dsimp only [bind, pure]
  cases files.stat (Path.absolute directory start) with
  | ok kind => cases kind <;> rfl
  | error error => rfl

theorem decode_path [Decoder] {contents : Text} (decoded : decode path contents = .ok config) :
    config.path = path := by
  unfold decode at decoded
  split at decoded
  · cases decoded
  · cases decoded
  · dsimp only at decoded
    split at decoded
    · cases decoded
      rfl
    · cases decoded

theorem load_path [Decoder] (loaded : load files directory path = .ok config) :
    path ≠ [] ∧ config.path = Path.absolute directory path := by
  have named : path ≠ [] := by
    rintro rfl
    cases loaded
  unfold load at loaded
  rw [if_neg (by simpa using named)] at loaded
  dsimp only [bind, pure] at loaded
  split at loaded
  · exact ⟨named, decode_path loaded⟩
  · cases loaded
  · cases loaded

/-- What is loaded is not the defaults, which come from no file. -/
theorem load_ne_default [Decoder] (absolute : Path.isAbsolute directory = true) (path : Text) :
    load files directory path ≠ .ok default := by
  intro loaded
  obtain ⟨names, whole⟩ := Path.directory_absolute absolute path
  exact whole.ne_nil (load_path loaded).2.symm

theorem resolve_eq_default_iff [Decoder] (absolute : Path.isAbsolute directory = true) :
    resolve files directory [] start = .ok default ↔
      ∃ place, find files directory start = .error (.notFound place) := by
  unfold resolve
  rw [if_neg (by simp)]
  dsimp only [bind, pure]
  split
  · next path found =>
      refine ⟨fun same => absurd same (load_ne_default absolute path), ?_⟩
      rintro ⟨place, other⟩
      cases found.symm.trans other
  · next place found => exact ⟨fun _ => ⟨place, found⟩, fun _ => rfl⟩
  · next error other found =>
      constructor
      · intro same
        cases same
      · rintro ⟨place, found'⟩
        exact absurd (Except.error.inj (found.symm.trans found')) (other place)

theorem resolve_explicit [Decoder] {explicit : Text} (given : explicit ≠ []) (start : Text) :
    resolve files directory explicit start = load files directory explicit :=
  if_pos (by simpa using given)

theorem find_ends {names : List Text}
    (whole : Path.Directory (origin files directory start) names) :
    find files directory start = result ↔
      Ends files (origin files directory start)
        (origin files directory start) names.length result := by
  rw [find_eq, whole.parts_eq, upward_eq whole]
  have ends := search_ends files (origin files directory start)
    (origin files directory start) names.length
  constructor
  · rintro rfl
    exact ends
  · exact ends.unique

theorem find_eq_notFound_iff {names : List Text}
    (whole : Path.Directory (origin files directory start) names) :
    (∃ place, find files directory start = .error (.notFound place)) ↔
      ∀ count ≤ names.length, Passed files
        (Path.parent^[count] (origin files directory start)) := by
  constructor
  · rintro ⟨place, found⟩
    obtain ⟨count, -, stops, -⟩ | ⟨-, all⟩ := (find_ends whole).mp found
    · cases stops
    · exact all
  · exact fun all => ⟨_, (find_ends whole).mpr (.inr ⟨rfl, all⟩)⟩

end Resolve

/-- The way up from a directory ends at the root, and the search along it ends in its first
directory that does not pass. The defaults come of a search that passes them all, and of an explicit
path comes no search. -/
theorem settings_nearest [Decoder] {directory : Text} (absolute : Path.isAbsolute directory = true)
    (files : Files Id) (start : Text) :
    ∃ last,
      (∀ count, level files directory start (count + 1) = level files directory start count ↔
        last ≤ count) ∧
      level files directory start last = text "/" ∧
      (∀ result, find files directory start = result ↔
        (∃ count ≤ last, Stops files (level files directory start count) result ∧
          ∀ earlier < count, Passed files (level files directory start earlier)) ∨
        result = .error (.notFound (level files directory start 0)) ∧
          ∀ count ≤ last, Passed files (level files directory start count)) ∧
      (resolve files directory [] start = .ok default ↔
        ∀ count ≤ last, Passed files (level files directory start count)) ∧
      ∀ explicit ≠ [], ∀ (stat : Text → Id (Except FileError FileKind)) (other : Text),
        resolve { files with stat := stat } directory explicit other =
          load files directory explicit := by
  obtain ⟨names, whole⟩ := origin_directory files absolute start
  refine ⟨names.length, whole.iterate_parent_eq_iff, ?_, fun result => find_ends whole, ?_, ?_⟩
  · rw [level, (whole.iterate_parent names.length).shown, Nat.sub_self]
    rfl
  · exact (resolve_eq_default_iff absolute).trans (find_eq_notFound_iff whole)
  · intro explicit given stat other
    rw [resolve_explicit given]
    rfl

/-- A file two directories below a file of settings, with a directory of that name in between. -/
def nested : Files Id where
  stat path :=
    if path = text "/work/src/main.rv" ∨ path = text "/work/rover.yml" then .ok .file
    else if path = text "/work/src/rover.yml" then .ok .directory
    else .error .notFound
  read _ := .ok []
  create _ _ := false

theorem nearest_nested :
    Path.isAbsolute (text "/work") = true ∧
      find nested (text "/work") (text "src/main.rv") = .ok (text "/work/rover.yml") ∧
      resolve nested (text "/work") [] (text "src/main.rv") ≠ .ok default := by
  have absolute : Path.isAbsolute (text "/work") = true := by decide
  obtain ⟨last, fixed, -, finds, defaults, -⟩ :=
    settings_nearest absolute nested (text "src/main.rv")
  have first : level nested (text "/work") (text "src/main.rv") 0 = text "/work/src" := by decide
  have second : level nested (text "/work") (text "src/main.rv") 1 = text "/work" := by decide
  have inside : 1 ≤ last := by
    by_contra outside
    have same := (fixed 0).mpr (by omega)
    rw [first, second] at same
    exact absurd same (by decide)
  have stops : Stops nested (level nested (text "/work") (text "src/main.rv") 1)
      (.ok (candidate (text "/work"))) := by
    rw [second]
    exact .found rfl
  refine ⟨absolute, (finds _).mpr (.inl ⟨1, inside, stops, fun earlier before => ?_⟩), fun same =>
    ?_⟩
  · obtain rfl : earlier = 0 := by omega
    rw [first]
    exact .inl rfl
  · exact stops.not_passed (defaults.mp same 1 inside)

end Config
end Rover
