import SyntaxForest.CommandLine.Arguments
import SyntaxForest.Forest

/-!
# Runs of the command line

What a run prints and with which code it ends, for given arguments and files. A file that cannot be
read is reported and is no failure.
-/

namespace SyntaxForest.CommandLine

open Numeric

/-- What a run prints, and the code with which it ends. -/
structure Report where
  code : Nat
  stdout : String
  stderr : String
  deriving DecidableEq

/-- The line that shows how the program is called. -/
def usageLine : String := "Usage: easyp [OPTIONS] <input>\n"

def helpText : String :=
  "Render easy-protocol syntax trees back to source text\n\n" ++ usageLine ++
  "\nArguments:\n" ++
  "  <input>  Forest document (JSON) produced by the parser\n" ++
  "\nOptions:\n" ++
  "  -f, --format <format>  Output format [default: text] [possible values: text, json]\n" ++
  "  -q, --quiet            Do not print a banner before each tree\n" ++
  "  -h, --help             Print help\n" ++
  "  -V, --version          Print version\n"

def versionText : String := "easyp 0.1.0\n"

/-- The line above a tree. -/
def banner : String := "parsed ast:\n"

/-- The trees of a forest as source text, each under a banner unless the run is quiet. -/
def listing (quiet : Bool) (forest : Forest) : String :=
  forest.foldl
    (fun out n => (if quiet then out else out ++ banner) ++ n.render ++ "\n") ""

/-- What is printed for a forest. -/
def Settings.forestReport (settings : Settings) (forest : Forest) : Report :=
  match settings.format with
  | .json => ⟨0, forest.dump ++ "\n", ""⟩
  | .text =>
    ⟨0, listing settings.quiet forest,
      if settings.quiet then ""
      else "released " ++ natText forest.releaseCount ++ " nodes from " ++ settings.input ++ "\n"⟩

/-- What is printed for the contents of the input, or if there are none. -/
def Settings.report (settings : Settings) (source : Except FileError String) : Report :=
  match source with
  | .error _ => ⟨0, "failed to open file: " ++ settings.input ++ "\n", ""⟩
  | .ok source => match Forest.parse source with
    | .error error => ⟨1, "", "Error: " ++ error.message ++ "\n"⟩
    | .ok forest => settings.forestReport forest

/-- What a command prints, once it has been told how files are read. -/
def Command.report (command : Command) (read : String → Except FileError String) : Report :=
  match command with
  | .help => ⟨0, helpText, ""⟩
  | .version => ⟨0, versionText, ""⟩
  | .run settings => settings.report (read settings.input)

/-- What is printed when the arguments are wrong. -/
def usageReport : Report := ⟨2, "", usageLine⟩

/-- What a run depends on besides its arguments: how arguments are taken and how files are read. -/
structure Environment where
  parse : List String → Option Command
  read : String → Except FileError String

/-- A run with the given arguments. -/
def Environment.run (env : Environment) (arguments : List String) : Report :=
  match env.parse arguments with
  | none => usageReport
  | some command => command.report env.read

/-- A file by its path from the working directory. Nothing is known about absolute paths. -/
def readFrom (directory : Directory) (path : String) : Except FileError String :=
  if path.isEmpty || path.startsWith "/" then .error .notFound else directory.read path

/-- A working directory with nothing around it. -/
def Environment.ofDirectory (directory : Directory) : Environment :=
  ⟨Command.ofArguments?, readFrom directory⟩

/-- A run with the given arguments in a directory. -/
def run (directory : Directory) (arguments : List String) : Report :=
  (Environment.ofDirectory directory).run arguments

end SyntaxForest.CommandLine
