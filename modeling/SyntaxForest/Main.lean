import SyntaxForest.CommandLine.Report

/-!
# The command line

Reads the arguments and the input file, prints the report and ends with its code.
-/

namespace SyntaxForest.CommandLine

/-- The text of a file; any failure to read its bytes counts as a file that is not there. -/
def readFile (path : String) : IO (Except FileError String) := do
  try
    return textOfBytes (← IO.FS.readBinFile path)
  catch _ => return .error .notFound

/-- Reads what the command needs and makes its report. -/
def perform (arguments : List String) : IO Report :=
  match Command.ofArguments? arguments with
  | none => return usageReport
  | some .help => return Command.help.report fun _ => .error .notFound
  | some .version => return Command.version.report fun _ => .error .notFound
  | some (.run settings) => return settings.report (← readFile settings.input)

end SyntaxForest.CommandLine

/-- Runs the program. -/
def main (arguments : List String) : IO UInt32 := do
  let report ← SyntaxForest.CommandLine.perform arguments
  IO.print report.stdout
  IO.eprint report.stderr
  return report.code.toUInt32
