import SyntaxForest.Document.Decode
import SyntaxForest.Document.Encode
import SyntaxForest.Files
import SyntaxForest.Tree.Check
import SyntaxForest.Tree.Equality
import SyntaxForest.Tree.Release

/-!
# Forests

A forest is the list of trees that one document describes. Reading a document decodes all of it
first and then checks the trees in their order; writing one always succeeds.
-/

namespace SyntaxForest

open Document

/-- The trees of a document. -/
abbrev Forest := List Node

/-- Why there is no forest. -/
inductive ForestError
  | file (error : FileError)
  | malformed (fault : Fault)
  | invalid (error : TreeError)

def ForestError.message : ForestError → String
  | file error => "I/O error: " ++ error.message
  | malformed fault => "Malformed forest document: " ++ fault.message
  | invalid error => "Invalid tree: " ++ error.message

namespace Forest

/-- Decodes a forest without checking its trees. -/
def decode (source : String) : Except Fault Forest := Document.decode (.list .node) source

/-- The first violation of an invariant in the first tree that has one. -/
def check (forest : Forest) : Except TreeError Unit := checkEach Node.check forest

/-- Reads a forest from a document. -/
def parse (source : String) : Except ForestError Forest :=
  match decode source with
  | .error fault => .error (.malformed fault)
  | .ok forest => match check forest with
    | .error error => .error (.invalid error)
    | .ok () => .ok forest

theorem parse_eq_ok {source : String} {forest : Forest} :
    parse source = .ok forest ↔ decode source = .ok forest ∧ check forest = .ok () := by
  cases hdecode : decode source with
  | error fault => simp [parse, hdecode]
  | ok decoded =>
    have hcases : parse source = (match check decoded with
        | .error error => .error (.invalid error)
        | .ok () => .ok decoded) := by rw [parse, hdecode]
    rw [hcases, Except.ok.injEq]
    constructor
    · intro h
      split at h
      · cases h
      · next hcheck =>
        cases h
        exact ⟨rfl, hcheck⟩
    · rintro ⟨rfl, hcheck⟩
      rw [hcheck]

/-- Reads a forest from a document in a file. -/
def load (directory : Directory) (path : String) : Except ForestError Forest :=
  match directory.read path with
  | .error error => .error (.file error)
  | .ok source => parse source

/-- The document that describes a forest. -/
def dump (forest : Forest) : String := (Json.array (forest.map Node.toJson)).pretty

/-- The source text of every tree, each by itself. -/
def render (forest : Forest) : List String := forest.map Node.render

/-- The number of nodes that are released with a forest. -/
def releaseCount (forest : Forest) : Nat := (forest.flatMap Node.release).length

/-- Whether two forests have the same trees. -/
def same (f g : Forest) : Bool := sameList Node.same f g

/-- Whether a forest is the same when it is read back from its own document. -/
def reparses (forest : Forest) : Except ForestError Bool :=
  match parse (dump forest) with
  | .error e => .error e
  | .ok again => .ok (same again forest)

end Forest

end SyntaxForest
