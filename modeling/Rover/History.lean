import Rover.Text.Line

namespace Rover
namespace History

def limit : Nat := 1000

def latest (inputs : List Text) : List Text :=
  inputs.drop (inputs.length - limit)

/-- The inputs that the contents of a file give. Reading ends at a line that is too long or no
valid text. -/
def read (contents : Text) : List Text :=
  latest (((Line.all contents).takeWhile fun line => !line.cut && line.bytes.isValid).map (·.bytes))

def add (inputs : List Text) (input : Text) : List Text :=
  if inputs.getLast? = some input then inputs else latest (inputs ++ [input])

def written (inputs : List Text) : Text :=
  inputs.flatMap fun input => input ++ [Line.lineFeed]

end History
end Rover
