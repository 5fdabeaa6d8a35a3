import Rover.Machine

/-!
Output that is held back. It goes out when it is flushed, when there is no room for more of it, and
at the end; what is written elsewhere goes out at once.
-/

namespace Rover
namespace Buffer

def capacity : Nat := 4096

/-- Writes bytes behind those that are held: what goes out, and what is held then. Bytes that are
too long for the whole buffer do not go through it. -/
def put (held bytes : Text) : Text × Text :=
  let whole := held ++ bytes
  if whole.length ≤ capacity then ([], whole)
  else if held.isEmpty || capacity < whole.length - capacity then (whole, [])
  else (whole.take capacity, whole.drop capacity)

def release (label held : Text) : List Event :=
  if held.isEmpty then [] else [.wrote label held]

def through (label held : Text) : List Event → List Event
  | [] => release label held
  | .flushed :: rest => release label held ++ through label [] rest
  | .wrote other bytes :: rest =>
      if other = label then
        release label (put held bytes).1 ++ through label (put held bytes).2 rest
      else .wrote other bytes :: through label held rest

end Buffer
end Rover
