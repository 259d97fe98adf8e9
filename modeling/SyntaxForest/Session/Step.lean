import SyntaxForest.Tree.Build

/-!
# Steps of a session

A session builds nodes step by step. The nodes are kept under names, and a step refers to nodes that
exist by those names. Operators and kinds are given by their names too.
-/

namespace SyntaxForest.Session

open Numeric

/-- A node to be built from named parts. -/
inductive Part
  | identifier (name : String)
  | primitive (kind : String)
  | reference (id : String)
  | constant (kind : String) (value : Int64)
  | withFloat (kind : String) (value : Double)
  | bool (value : Bool)
  | int (value : Int32)
  | long (value : Int64)
  | float (value : Single)
  | double (value : Double)
  | call (func : String) (args : List String)
  | index (var idx : String)
  | access (var field : String)
  | cast (ty expr : String)
  | unary (op expr : String)
  | binary (op left right : String)
  | assign (op lval rval : String)
  | brk
  | cont
  | ret (value : Option String)
  | exprStmt (expr : String)
  | ite (condition thenBranch : String) (elseBranch : Option String)
  | loop (condition body : String)
  | block (stats : List String)
  | declarator (id : String) (init : Option String)
  | declaration (ty : String) (declarators : List String)
  | parameter (ty id : String)
  | header (ty id : String) (params : List String)
  | function (header body : String)
  | struct (id : String) (fields : List String)

/-- One step. -/
inductive Step
  /-- Builds a node and keeps it under a name. -/
  | build (out : String) (part : Part)
  /-- Reads a forest and keeps its roots under a name and their places. -/
  | parse (out source : String)
  | copy (of out : String)
  /-- Wraps a node several times in a block or a unary operator. -/
  | nest (of out wrap op : String) (times : Nat)
  | setDims (of : String) (dims : List String)
  | validate (of : String)
  | check (of : String)
  | inspect (of : String)
  | equal (a b : String)
  /-- Takes a node apart and forgets its name. -/
  | release (of : String)
  | forest (roots : List String)
  /-- Writes a node to the session's renderer. -/
  | visit (of : String)
  /-- Empties the session's renderer. -/
  | clear
  /-- Takes the text out of the session's renderer and starts a new one. -/
  | take
  | unknown

/-- What is wrong with a request. -/
inductive BadRequest
  | unknownName
  | unknownStep
  | unknownWrap
  | badField
  | notA (what : String)
  deriving DecidableEq

def BadRequest.message : BadRequest → String
  | unknownName => "unknown name"
  | unknownStep => "unknown step"
  | unknownWrap => "wrap"
  | badField => "bad field"
  | notA what => "not " ++ what

end SyntaxForest.Session
