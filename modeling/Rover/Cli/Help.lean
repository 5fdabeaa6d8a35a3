import Rover.Cli.Flag

namespace Rover
namespace Cli

def programName : Text := text "rover"

def programVersion : Text := text "0.1.0-dev"

inductive Command where
  | run
  | check
  | repl
  | help
  deriving DecidableEq, Repr

namespace Command

def all : List Command := [run, check, repl, help]

def names : Command → List Text
  | run => [text "run"]
  | check => [text "check"]
  | repl => [text "repl"]
  | help => [text "help", text "h"]

def named? (name : Text) : Option Command :=
  all.find? (·.names.contains name)

def purpose : Command → Text
  | run => text "parse and execute a source file"
  | check => text "parse a source file and report syntax errors"
  | repl => text "start an interactive session"
  | help => text "Shows a list of commands or help for one command"

def argumentsShown : Command → Text
  | run | check => text "<file.rv>"
  | repl => text "[arguments...]"
  | help => text "[command]"

end Command

def runFlags : List Flag := [.config, .strict, .scale, .noColor]

def helpFlags : List Flag := [.help .long, .help .short]

def versionFlags : List Flag := [.version .long, .version .short]

def globalFlags : List Flag := runFlags ++ helpFlags ++ versionFlags

def Command.ownFlags : Command → List Flag
  | .run | .check | .repl => runFlags
  | .help => []

structure Row where
  left : Text
  right : Text

def spaces (count : Nat) : Text := List.replicate count 32

def table (indent : Nat) (rows : List Row) : Text :=
  let width := (rows.map (·.left.length)).foldl max 0
  rows.flatMap fun row =>
    spaces indent ++ row.left ++ spaces (width + 2 - row.left.length) ++ row.right ++ text "\n"

def configRow : Row :=
  ⟨text "--config value",
    text "rover.yml to load instead of searching upwards from the source file"⟩

def strictRow : Row := ⟨text "--strict", text "stop at the first runtime error"⟩

def scaleRow : Row :=
  ⟨text "--float-scale value",
    text "multiply the left operand of float comparisons (0 disables) (default: 0)"⟩

def noColorRow : Row := ⟨text "--no-color", text "disable colored diagnostics"⟩

def runRows : List Row := [configRow, strictRow, scaleRow, noColorRow]

def globalRows : List Row :=
  runRows ++ [⟨text "--help, -h", text "show help"⟩,
    ⟨text "--version, -v", text "print the version"⟩]

def commandRows : List Row :=
  Command.all.map fun command => ⟨Text.join (text ", ") command.names, command.purpose⟩

def heading : Text :=
  text "NAME:\n   " ++ programName ++ text " - run rover programs\n\n"
    ++ text "USAGE:\n   rover [global options] <file.rv>\n"
    ++ text "   rover [global options] command [arguments...]\n\n"

def programHelp : Text :=
  heading ++ text "VERSION:\n   " ++ programVersion ++ text "\n\nCOMMANDS:\n"
    ++ table 5 commandRows ++ text "\nGLOBAL OPTIONS:\n" ++ table 3 globalRows

/-- The help on a command without a name, which is the program again. -/
def namelessHelp : Text :=
  heading ++ text "COMMANDS:\n" ++ table 5 commandRows ++ text "\nOPTIONS:\n"
    ++ table 3 globalRows ++ text "   \n"

def Command.manual (command : Command) : Text :=
  let (title, options) :=
    match command with
    | .run | .check | .repl =>
        (programName ++ text " " ++ (command.names.head?).getD [],
          text "\nOPTIONS:\n" ++ table 3 runRows ++ text "   \n")
    | .help => ([], [])
  text "NAME:\n   " ++ title ++ text " - " ++ command.purpose ++ text "\n\nUSAGE:\n   " ++ title
    ++ (if options.isEmpty then [] else text " [command options]") ++ text " "
    ++ command.argumentsShown ++ text "\n" ++ options

end Cli
end Rover
