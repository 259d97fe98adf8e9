/-!
# Arguments of the command line

Arguments are taken from left to right, and the first that cannot be right ends the reading. An
option whose value is the argument behind it is settled only when the next thing on the command line
is, so a wrong value is noticed before a request for help that follows it.
-/

namespace SyntaxForest.CommandLine

/-- How the trees are printed. -/
inductive OutputFormat
  | text
  | json
  deriving DecidableEq

/-- The format with the given name. -/
def OutputFormat.ofName? : String → Option OutputFormat
  | "text" => some .text
  | "json" => some .json
  | _ => none

/-- What is to be done with which file. -/
structure Settings where
  input : String
  format : OutputFormat
  quiet : Bool

/-- What a command line asks for. -/
inductive Command
  | help
  | version
  | run (settings : Settings)

/-- A value of the format option that has not been looked at yet. -/
inductive Pending
  | nothing
  | awaited
  | value (text : String)

/-- What the arguments so far have set. -/
structure Progress where
  input : Option String := none
  format : Option OutputFormat := none
  quiet : Bool := false
  pending : Pending := .nothing

/-- Why the reading of arguments ends before their end: with a fault, or because a request for help
or for the version makes the rest irrelevant. -/
inductive Stop
  | usage
  | help
  | version

/-- What has been set, or why there is nothing more to read. -/
abbrev Parsed := Except Stop Progress

namespace Progress

/-- Sets the format, which must be known and can only be set once. -/
def setFormat (p : Progress) (text : String) : Parsed :=
  match p.format, OutputFormat.ofName? text with
  | none, some format => .ok { p with format := some format }
  | _, _ => .error .usage

/-- Looks at a pending value; one that is still awaited is missing. -/
def settle (p : Progress) : Parsed :=
  match p.pending with
  | .nothing => .ok p
  | .awaited => .error .usage
  | .value text => { p with pending := .nothing }.setFormat text

/-- Takes the format option, with or without a value attached to it. -/
def formatOption (p : Progress) (attached : Option String) : Parsed := do
  let p ← p.settle
  match attached with
  | some text => p.setFormat text
  | none => return { p with pending := .awaited }

/-- Takes the flag that asks for less output, which can only be given once. -/
def quietFlag (p : Progress) : Parsed := do
  let p ← p.settle
  if p.quiet then .error .usage else return { p with quiet := true }

/-- Takes a request that ends the reading of arguments. -/
def request (p : Progress) (stop : Stop) : Parsed := do
  let _ ← p.settle
  .error stop

/-- Takes the name of the input, of which there is one. -/
def positional (p : Progress) (text : String) : Parsed :=
  match p.input with
  | some _ => .error .usage
  | none => do
    let p ← p.settle
    return { p with input := some text }

/-- Takes an argument that is no option: a value that is awaited, or the name of the input. -/
def plain (p : Progress) (text : String) : Parsed :=
  match p.pending with
  | .awaited => .ok { p with pending := .value text }
  | _ => p.positional text

/-- Takes the letters behind a single dash. The letter of the format option makes all that follows
it, without a leading equals sign, its value. -/
def short (p : Progress) : List Char → Parsed
  | [] => .ok p
  | 'f' :: rest => p.formatOption <| match rest with
    | [] => none
    | '=' :: value => some (String.ofList value)
    | value => some (String.ofList value)
  | 'q' :: rest => do (← p.quietFlag).short rest
  | 'h' :: _ => p.request .help
  | 'V' :: _ => p.request .version
  | _ :: _ => .error .usage

/-- Takes an option behind two dashes, with the value that may be attached to it by an equals
sign. -/
def long (p : Progress) (name : String) (attached : Option String) : Parsed :=
  match name, attached with
  | "format", value => p.formatOption value
  | "quiet", none => p.quietFlag
  | "help", none => p.request .help
  | "version", none => p.request .version
  | _, _ => .error .usage

/-- Takes one argument. -/
def argument (p : Progress) (text : String) : Parsed :=
  match text.toList with
  | '-' :: '-' :: option =>
    let name := option.takeWhile (· != '=')
    match option.drop name.length with
    | [] => p.long (String.ofList name) none
    | _ :: value => p.long (String.ofList name) (some (String.ofList value))
  | '-' :: c :: letters => p.short (c :: letters)
  | _ => p.plain text

/-- Takes all arguments. Behind a double dash no argument is an option. -/
def arguments (p : Progress) : List String → Parsed
  | [] => .ok p
  | text :: rest =>
    if text = "--" then rest.foldlM positional p
    else match p.argument text with
      | .error stop => .error stop
      | .ok p => p.arguments rest

end Progress

/-- What a command line asks for, unless it is wrong. -/
def Command.ofArguments? (arguments : List String) : Option Command :=
  match (Progress.arguments {} arguments).bind Progress.settle with
  | .error .usage => none
  | .error .help => some .help
  | .error .version => some .version
  | .ok p => match p.input with
    | none => none
    | some input => some (.run ⟨input, p.format.getD .text, p.quiet⟩)

end SyntaxForest.CommandLine
