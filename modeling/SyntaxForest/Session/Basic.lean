import SyntaxForest.Forest
import SyntaxForest.Session.Inspect
import SyntaxForest.Session.Step

/-!
# Sessions

The state of a session is a set of named nodes and one renderer. `Session.step` answers one step and
gives the state after it; a step that fails leaves the state as it was. Nodes are values: what is
built from a node does not change when the name of the node is given to another.
-/

namespace SyntaxForest

namespace Session

/-- Why a step fails: the request makes no sense, a part cannot be built, or a document cannot be
read. -/
inductive StepError
  | request (error : BadRequest)
  | tree (error : TreeError)
  | forest (error : ForestError)

/-- The answer to a step. -/
inductive Answer
  | node (node : Node)
  | kinds (kinds : List Kind)
  | done
  | text (text : String)
  /-- A type after its dimensions were to be set, and why they were not. -/
  | dims (ty : Ty) (error : Option TreeError)
  | verdict (error : Option TreeError)
  | properties (properties : List (String × Property))
  | equal (same : Bool)
  | released (kinds : List Kind)
  | forest (forest : Forest)
  | output (text : String)

end Session

/-- Named nodes and a renderer. -/
structure Session where
  nodes : List (String × Node) := []
  renderer : Renderer := {}

namespace Session

/-- What a step gives, or why it fails. -/
abbrev Result (α : Type) := Except StepError α

/-- Keeps a node under a name, in place of the one that was there before. -/
def insert (s : Session) (name : String) (n : Node) : Session :=
  { s with nodes := (name, n) :: s.nodes.filter (·.1 != name) }

/-- Forgets the node under a name. -/
def erase (s : Session) (name : String) : Session :=
  { s with nodes := s.nodes.filter (·.1 != name) }

/-! ## References

A step names the nodes that it uses. Each must exist and be a node of the sort that is needed. -/

/-- The node under a name. -/
def node (s : Session) (name : String) : Result Node :=
  match s.nodes.lookup name with
  | some n => .ok n
  | none => .error (.request .unknownName)

/-- The node under a name as one of the sort that is needed. -/
def reference {α : Type} (s : Session) (sort : Node → Option α) (what name : String) :
    Result α := do
  match sort (← s.node name) with
  | some a => return a
  | none => throw (.request (.notA what))

def expr (s : Session) : String → Result Expr :=
  s.reference (fun | .expr e => some e | _ => none) "an expression"

def stmt (s : Session) : String → Result Stmt :=
  s.reference (fun | .stmt st => some st | _ => none) "a statement"

def type (s : Session) : String → Result Ty :=
  s.reference (fun | .type ty => some ty | _ => none) "a type"

def identifier (s : Session) : String → Result String :=
  s.reference (fun | .expr (.ident id) => some id | _ => none) "an identifier"

def constant (s : Session) : String → Result Constant :=
  s.reference (fun | .expr (.const c) => some c | _ => none) "a constant"

def block (s : Session) : String → Result (List Stmt) :=
  s.reference (fun | .stmt (.block stats) => some stats | _ => none) "a block"

def declarator (s : Session) : String → Result Declarator :=
  s.reference (fun | .declarator d => some d | _ => none) "a declarator"

def declaration (s : Session) : String → Result Declaration :=
  s.reference (fun | .stmt (.decl d) => some d | _ => none) "a declaration"

def parameter (s : Session) : String → Result Parameter :=
  s.reference (fun | .parameter p => some p | _ => none) "a parameter"

def header (s : Session) : String → Result Header :=
  s.reference (fun | .header h => some h | _ => none) "a header"

/-- Looks up a reference that may be missing. -/
def optional {α : Type} (find : String → Result α) : Option String → Result (Option α)
  | none => return none
  | some name => return some (← find name)

/-- The word of a vocabulary with the given name. -/
def word {α : Type} (all : List α) (nameOf : α → String) (name : String) : Result α :=
  match all.find? (nameOf · == name) with
  | some a => .ok a
  | none => .error (.request .badField)

/-- The primitive type with the given name. -/
def kind (name : String) : Result Primitive := word Primitive.all Primitive.keyword name

/-- A tree error as the failure of a step. -/
def built {α : Type} : Except TreeError α → Result α
  | .ok a => .ok a
  | .error e => .error (.tree e)

/-! ## Building -/

/-- Builds a node from its parts. -/
def build (s : Session) : Part → Result Node
  | .identifier name => return .name name
  | .primitive k => return .type (.primitive (← kind k))
  | .reference id => return .type (.reference (← s.identifier id))
  | .constant k value => return .expr (.const (.ofInt (← kind k) value))
  | .withFloat k value => return .expr (.const (← built (Constant.ofDouble (← kind k) value)))
  | .bool value => return .expr (.const (.bool value))
  | .int value => return .expr (.const (.int value))
  | .long value => return .expr (.const (.long value))
  | .float value => return .expr (.const (.float value))
  | .double value => return .expr (.const (.double value))
  | .call func args => return .expr (.call (← s.expr func) (← args.mapM s.expr))
  | .index var idx => return .expr (.index (← s.expr var) (← s.expr idx))
  | .access var field => return .expr (.access (← s.expr var) (← s.expr field))
  | .cast ty e => return .expr (.cast (← s.type ty) (← s.expr e))
  | .unary op e => return .expr (.unary (← word UnaryOp.all UnaryOp.name op) (← s.expr e))
  | .binary op left right =>
    return .expr (.binary (← word BinaryOp.all BinaryOp.name op) (← s.expr left) (← s.expr right))
  | .assign op lval rval =>
    return .expr (.assign (← word AssignOp.all AssignOp.name op) (← s.expr lval) (← s.expr rval))
  | .brk => return .stmt .brk
  | .cont => return .stmt .cont
  | .ret value => return .stmt (.ret (← optional s.expr value))
  | .exprStmt e => return .stmt (.expr (← s.expr e))
  | .ite condition thenBranch elseBranch =>
    return .stmt
      (.ite (← s.expr condition) (← s.stmt thenBranch) (← optional s.stmt elseBranch))
  | .loop condition body => return .stmt (.loop (← s.expr condition) (← s.stmt body))
  | .block stats => return .block (← stats.mapM s.stmt)
  | .declarator id init =>
    return .declarator ⟨← s.identifier id, ← optional s.expr init⟩
  | .declaration ty declarators => do
    let ty ← s.type ty
    return .declaration (← built (Declaration.ofList ty (← declarators.mapM s.declarator)))
  | .parameter ty id => return .parameter ⟨← s.type ty, ← s.identifier id⟩
  | .header ty id params =>
    return .header ⟨← s.type ty, ← s.identifier id, ← params.mapM s.parameter⟩
  | .function head body => return .function ⟨← s.header head, ← s.block body⟩
  | .struct id fields => return .struct ⟨← s.identifier id, ← fields.mapM s.declaration⟩

/-- A statement inside the given number of blocks, each of which holds nothing else. -/
def inBlocks : Nat → Stmt → Stmt
  | 0, st => st
  | times + 1, st => inBlocks times (.block [st])

/-- An expression under the given number of unary operators. -/
def underOperator (op : UnaryOp) : Nat → Expr → Expr
  | 0, e => e
  | times + 1, e => underOperator op times (.unary op e)

/-- Wraps a node several times. -/
def nested (s : Session) (name wrap op : String) (times : Nat) : Result Node := do
  let n ← s.node name
  match wrap with
  | "block" => match n with
    | .stmt st => return .stmt (inBlocks times st)
    | _ => throw (.request (.notA "a statement"))
  | "unary" =>
    let op ← word UnaryOp.all UnaryOp.name op
    match n with
    | .expr e => return .expr (underOperator op times e)
    | _ => throw (.request (.notA "an expression"))
  | _ => throw (.request .unknownWrap)

/-- Keeps the roots of a forest under a name followed by their places. -/
def insertRoots (name : String) : Nat → List Node → Session → Session
  | _, [], s => s
  | place, n :: ns, s =>
    insertRoots name (place + 1) ns (s.insert (name ++ Numeric.natText place) n)

/-- The error of an outcome, if it has one. -/
def errorOf : Except TreeError Unit → Option TreeError
  | .ok () => none
  | .error e => some e

/-! ## Steps -/

/-- The answer to a step and the state after it, or why the step fails. -/
def perform (s : Session) : Step → Result (Answer × Session)
  | .build out part => do
    let n ← s.build part
    return (.node n, s.insert out n)
  | .parse out source => match Forest.parse source with
    | .error e => .error (.forest e)
    | .ok forest => .ok (.kinds (forest.map Node.kind), insertRoots out 0 forest s)
  | .copy of out => return (.done, s.insert out (← s.node of))
  | .nest of out wrap op times => do
    let n ← s.nested of wrap op times
    return (.text n.render, s.insert out n)
  | .setDims of dims => do
    let ty ← s.type of
    match ty.setDims (← dims.mapM s.expr) with
    | .ok ty => return (.dims ty none, s.insert of (.type ty))
    | .error e => return (.dims ty (some e), s)
  | .validate of => return (.verdict (errorOf (← s.constant of).validate), s)
  | .check of => return (.verdict (errorOf (← s.node of).check), s)
  | .inspect of => return (.properties (← s.node of).properties, s)
  | .equal a b => return (.equal ((← s.node a).same (← s.node b)), s)
  | .release of => return (.released (← s.node of).release, s.erase of)
  | .forest roots => return (.forest (← roots.mapM s.node), s)
  | .visit of => do
    let n ← s.node of
    let renderer := n.visit s.renderer
    return (.output renderer.result, { s with renderer })
  | .clear =>
    let renderer := s.renderer.clear
    return (.output renderer.result, { s with renderer })
  | .take => return (.output s.renderer.result, { s with renderer := {} })
  | .unknown => throw (.request .unknownStep)

/-- Answers a step. A step that fails leaves the state as it was. -/
def step (s : Session) (request : Step) : Result Answer × Session :=
  match s.perform request with
  | .ok (answer, s') => (.ok answer, s')
  | .error e => (.error e, s)

/-- The answers to the steps of a whole session. -/
def run : Session → List Step → List (Result Answer)
  | _, [] => []
  | s, request :: requests =>
    let (answer, s') := s.step request
    answer :: s'.run requests

end Session

end SyntaxForest
