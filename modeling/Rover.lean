import Rover.Scope.Tree
import Rover.Main
import Rover.Proofs.Respected
import Rover.Proofs.Ownership
import Rover.Proofs.Ownership.Evaluation
import Rover.Proofs.Timeline
import Rover.Proofs.Timeline.Ownership
import Rover.Proofs.Constants
import Rover.Proofs.Forest
import Rover.Proofs.Strictness
import Rover.Proofs.Strictness.Evaluation
import Rover.Proofs.Strictness.Execution
import Rover.Proofs.Grammar
import Rover.Proofs.Grammar.Placed
import Rover.Proofs.Grammar.Sound
import Rover.Proofs.Grammar.Complete
import Rover.Proofs.Grammar.Acceptance
import Rover.Proofs.Grammar.Spelled
import Rover.Proofs.Outline
import Rover.Proofs.Frame
import Rover.Proofs.Safety
import Rover.Proofs.Safety.Evaluation
import Rover.Proofs.Safety.Execution
import Rover.Proofs.Relocation
import Rover.Proofs.Relocation.Evaluation
import Rover.Proofs.Relocation.Execution
import Rover.Proofs.Grammar.Carried
import Rover.Proofs.Grammar.Joined
import Rover.Proofs.Session.Input
import Rover.Proofs.Session
import Rover.Proofs.Encoding
import Rover.Proofs.Lexing
import Rover.Proofs.Lexing.Partition
import Rover.Proofs.Calls
import Rover.Proofs.Asking
import Rover.Proofs.Asking.Following
import Rover.Proofs.Cursor
import Rover.Proofs.Reporting
import Rover.Proofs.Arithmetic
import Rover.Proofs.Leaves
import Rover.Proofs.Range
import Rover.Proofs.Literals
import Rover.Proofs.Range.Evaluation
import Rover.Proofs.Range.Execution
import Rover.Proofs.Visibility
import Rover.Proofs.Lexing.Coverage
import Rover.Proofs.Grammar.Layout
import Rover.Proofs.Sites
import Rover.Proofs.Sites.Source
import Rover.Proofs.Session.Grouping
import Rover.Proofs.Session.LineStart
import Rover.Proofs.Cli
import Rover.Proofs.Arising
import Rover.Proofs.Paths
import Rover.Proofs.Places
import Rover.Proofs.Targets
import Rover.Proofs.Update
import Rover.Proofs.Remainder
import Rover.Proofs.Observation
import Rover.Proofs.Locating
import Rover.Proofs.Pushes
import Rover.Proofs.Formatting
import Rover.Proofs.Grammar.Refusal
import Rover.Proofs.Grammar.Lookahead
import Rover.Proofs.Grammar.Connectives
import Rover.Proofs.Grammar.Viable
import Rover.Proofs.Grammar.Complaints
import Rover.Proofs.Grammar.Diagnosed
import Rover.Proofs.Grammar.Inline
import Rover.Proofs.Grammar.Progress
import Rover.Proofs.Grammar.Chunks
import Rover.Proofs.Grammar.Braces
import Rover.Proofs.Lexing.Spacing
import Rover.Proofs.Lexing.Joined
import Rover.Proofs.Quoting
import Rover.Proofs.Inspection
import Rover.Proofs.Searching
import Rover.Proofs.Flags
import Rover.Proofs.Settings
import Rover.Proofs.Finiteness
import Rover.Proofs.Checking
import Rover.Proofs.Scale
