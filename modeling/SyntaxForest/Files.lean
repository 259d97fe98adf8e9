/-!
# Files

A snapshot of a directory: the files in it and below it, with their contents. Reading a path in a
snapshot gives a text or says why there is none.
-/

namespace SyntaxForest

/-- Why a file cannot be read. -/
inductive FileError
  | notFound
  | isADirectory
  | notADirectory
  | invalidData
  | nulInPath
  | nameTooLong
  deriving DecidableEq

namespace FileError

/-- The name of the error. -/
def name : FileError → String
  | notFound => "NotFound"
  | isADirectory => "IsADirectory"
  | notADirectory => "NotADirectory"
  | invalidData => "InvalidData"
  | nulInPath => "InvalidInput"
  | nameTooLong => "InvalidFilename"

def message : FileError → String
  | notFound => "No such file or directory (os error 2)"
  | isADirectory => "Is a directory (os error 21)"
  | notADirectory => "Not a directory (os error 20)"
  | invalidData => "stream did not contain valid UTF-8"
  | nulInPath => "file name contained an unexpected NUL byte"
  | nameTooLong => "File name too long (os error 36)"

end FileError

/-- The contents of a file as a text, if they are one. -/
def textOfBytes (bytes : ByteArray) : Except FileError String :=
  match String.fromUTF8? bytes with
  | some text => .ok text
  | none => .error .invalidData

/-- The steps of a path. Empty steps and single dots stay where they are. -/
def pathSteps (path : String) : List String :=
  (path.splitOn "/").filter fun step => step != "" && step != "."

/-- The most bytes in the name of a file or directory. -/
def maxNameBytes : Nat := 255

/-- The most bytes in a path. -/
def maxPathBytes : Nat := 4095

/-- Says what is wrong with a path as a whole, before any of its steps is taken. A NUL would end the
path early, so it is refused however long the path is. -/
def checkPath (path : String) : Except FileError Unit :=
  if path.toList.contains '\x00' then .error .nulInPath
  else if maxPathBytes < path.utf8ByteSize then .error .nameTooLong
  else .ok ()

/-- A directory with the files in it and below it, each under the steps that lead to it. -/
structure Directory where
  files : List (List String × ByteArray)

namespace Directory

/-- A directory with files under the given paths. -/
def ofFiles (files : List (String × ByteArray)) : Directory :=
  ⟨files.map fun (path, bytes) => (pathSteps path, bytes)⟩

/-- The contents of the file to which the steps lead. -/
def file? (d : Directory) (steps : List String) : Option ByteArray :=
  (d.files.find? (·.1 == steps)).map (·.2)

/-- Whether the steps lead to the directory itself or to one that holds a file. -/
def isDirectory (d : Directory) (steps : List String) : Bool :=
  steps.isEmpty || d.files.any fun (path, _) => steps.isPrefixOf path && steps != path

/-- Where a path has led so far: out of the directory, or to a place inside it. -/
inductive Place
  | outside
  | inside (steps : List String)

/-- Takes one step of a path, which must start from a directory. Only there is the length of the name
looked at. Nothing outside can be found by its name. -/
def walkStep (d : Directory) (place : Place) (step : String) : Except FileError Place :=
  match place with
  | .outside =>
    if step == ".." then .ok .outside
    else if maxNameBytes < step.utf8ByteSize then .error .nameTooLong
    else .error .notFound
  | .inside steps =>
    if d.isDirectory steps then
      if step == ".." then
        .ok (if steps.isEmpty then .outside else .inside steps.dropLast)
      else if maxNameBytes < step.utf8ByteSize then .error .nameTooLong
      else .ok (.inside (steps ++ [step]))
    else if (d.file? steps).isSome then .error .notADirectory
    else .error .notFound

/-- Reads the file at the end of a path from the directory. A path that ends in a slash leads to a
directory or nowhere. -/
def read (d : Directory) (path : String) : Except FileError String := do
  checkPath path
  match ← (pathSteps path).foldlM d.walkStep (.inside []) with
  | .outside => throw .isADirectory
  | .inside steps =>
    if d.isDirectory steps then throw .isADirectory
    match d.file? steps with
    | none => throw .notFound
    | some bytes =>
      if path.endsWith "/" || path.endsWith "/." then throw .notADirectory
      textOfBytes bytes

end Directory

end SyntaxForest
