import Rover.Proofs.Finiteness
import Rover.Proofs.Searching

/-!
Configurations that make sense. Their color mode is a known one and their scale is finite. The
defaults make sense, and so does all that is loaded: a file that asks for something else is refused
with the issues that it has.
-/

namespace Rover

theorem Path.clean_ne_nil (path : Text) : clean path ≠ [] := by
  unfold clean ofParts
  dsimp only
  split
  · exact List.cons_ne_nil _ _
  · split
    · exact List.cons_ne_nil _ _
    · next some => simpa using some

namespace Config

structure Sound (config : Config) : Prop where
  color : isColorMode config.color = true
  scale : config.scale.isFinite = true

/-- The file that the settings come from: an explicit one, or else the nearest one. -/
inductive Chosen (files : Files Id) (directory explicit start : Text) : Text → Prop where
  | explicit (given : explicit ≠ []) : Chosen files directory explicit start explicit
  | nearest {path : Text} (none : explicit = []) (found : find files directory start = .ok path) :
      Chosen files directory explicit start path

section Load

variable {files : Files Id} {directory explicit start path contents : Text} {config : Config}
  {found : Fields}

theorem issues_eq_nil_iff : config.issues = [] ↔ config.Sound := by
  rw [issues, List.append_eq_nil_iff]
  constructor
  · rintro ⟨color, scale⟩
    refine ⟨?_, (isFinite_iff _).mpr ?_⟩
    · by_contra unknown
      rw [if_neg unknown] at color
      cases color
    · rw [← Bool.not_eq_true]
      intro infinite
      rw [if_pos infinite] at scale
      cases scale
  · rintro ⟨color, scale⟩
    rw [isFinite_iff, ← Bool.not_eq_true] at scale
    exact ⟨if_pos color, if_neg scale⟩

theorem default_sound : default.Sound :=
  ⟨by decide, by decide⟩

theorem decode_of_unsound [Decoder] (decoded : Decoder.decode contents = .ok found)
    (unsound : ¬(ofFields path found).Sound) :
    decode path contents = .error (.invalid path (ofFields path found).issues) := by
  rw [decode, decoded]
  dsimp only
  split
  · next none => exact absurd (issues_eq_nil_iff.mp none) unsound
  · rfl

theorem decode_sound [Decoder] (decoded : decode path contents = .ok config) : config.Sound := by
  unfold decode at decoded
  split at decoded
  · cases decoded
  · cases decoded
  · dsimp only at decoded
    split at decoded
    · next none =>
        cases decoded
        exact issues_eq_nil_iff.mp none
    · cases decoded

theorem load_sound [Decoder] (loaded : load files directory path = .ok config) : config.Sound := by
  unfold load at loaded
  dsimp only [bind, pure] at loaded
  split at loaded
  · cases loaded
  · split at loaded
    · exact decode_sound loaded
    · cases loaded
    · cases loaded

theorem resolve_sound [Decoder] (resolved : resolve files directory explicit start = .ok config) :
    config.Sound := by
  unfold resolve at resolved
  dsimp only [bind, pure] at resolved
  split at resolved
  · exact load_sound resolved
  · split at resolved
    · exact load_sound resolved
    · cases resolved
      exact default_sound
    · cases resolved

theorem load_of_read [Decoder] (named : path ≠ [])
    (read : files.read (Path.absolute directory path) = .ok contents) :
    load files directory path = decode (Path.absolute directory path) contents := by
  unfold load
  rw [if_neg (by simpa using named)]
  dsimp only [bind, pure]
  rw [read]

theorem search_ne_nil {origin : Text} {places : List Text}
    (found : search files origin places = .ok path) : path ≠ [] := by
  induction places with
  | nil => cases found
  | cons place others ih =>
      unfold search at found
      dsimp only [bind, pure] at found
      split at found
      · cases found
        unfold Path.join
        split <;> exact Path.clean_ne_nil _
      · exact ih found
      · exact ih found
      · cases found

theorem Chosen.ne_nil (chosen : Chosen files directory explicit start path) : path ≠ [] := by
  cases chosen with
  | explicit given => exact given
  | nearest none found =>
      rw [find_eq] at found
      exact search_ne_nil found

theorem Chosen.resolve [Decoder] (chosen : Chosen files directory explicit start path) :
    resolve files directory explicit start = load files directory path := by
  unfold Config.resolve
  cases chosen with
  | explicit given => rw [if_pos (by simpa using given)]
  | nearest none found =>
      rw [if_neg (by simpa using none)]
      dsimp only [bind, pure]
      rw [found]

end Load

end Config

end Rover
