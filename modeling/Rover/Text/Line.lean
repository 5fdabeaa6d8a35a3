import Rover.Text

/-!
Lines of text. A line ends with a line feed, and a carriage return before the line feed belongs to
the line break. A line that is too long is cut into pieces, and a piece never ends with a carriage
return, since the line feed may follow.
-/

namespace Rover

structure Line where
  bytes : Text
  /-- Whether more of the same line follows. -/
  cut : Bool
  deriving DecidableEq, Repr

namespace Line

def lineFeed : UInt8 := 10

def carriageReturn : UInt8 := 13

/-- How many bytes are looked at for the end of a line. -/
def limit : Nat := 4096

def withoutReturn (bytes : Text) : Text :=
  if bytes.getLast? = some carriageReturn then bytes.dropLast else bytes

/-- Whether the first line does not depend on what may follow. -/
def isDecided (bytes : Text) : Bool :=
  limit ≤ bytes.length || bytes.contains lineFeed

def first (bytes : Text) : Line × Nat :=
  let window := bytes.take limit
  let start := window.takeWhile (· != lineFeed)
  if start.length < window.length then (⟨withoutReturn start, false⟩, start.length + 1)
  else if window.length < limit then (⟨window, false⟩, window.length)
  else (⟨withoutReturn window, true⟩, (withoutReturn window).length)

theorem limit_le_length_withoutReturn_add_one (bytes : Text) (long : limit ≤ bytes.length) :
    limit ≤ (withoutReturn bytes).length + 1 := by
  unfold withoutReturn
  split
  · rw [List.length_dropLast]
    omega
  · omega

theorem first_pos (bytes : Text) (filled : bytes ≠ []) : 0 < (first bytes).2 := by
  have positive : 0 < bytes.length := List.length_pos_iff.2 filled
  unfold first
  simp only
  split
  · simp
  · split
    · simp [limit]; omega
    · have bound := limit_le_length_withoutReturn_add_one (bytes.take limit) (by omega)
      simp only [limit] at bound ⊢
      omega

/-- The lines of a text. A last line without a line break counts unless it is empty. -/
def all : Text → List Line
  | [] => []
  | byte :: rest =>
      (first (byte :: rest)).1 :: all ((byte :: rest).drop (first (byte :: rest)).2)
termination_by bytes => bytes.length
decreasing_by
  have taken := first_pos (byte :: rest) (by simp)
  simp only [List.length_drop, List.length_cons]
  omega

end Line
end Rover
