import SyntaxForest.Tree.Kind

/-!
# Walking a tree

`Node.children` lists the parts of a node in the order in which they stand in the source text, and
`Node.walk` unfolds a node into the tree of all its parts: `Node.walk_eq` says that it is the node
on top of the walks of its children. What a traversal meets, in which order and at which depth, is
read off that tree.
-/

namespace SyntaxForest

/-- The parts of a type: the name it refers to, then its dimensions. -/
def Ty.children (ty : Ty) : List Node :=
  (match ty.base with
    | .primitive _ => []
    | .reference id => [.name id]) ++ (ty.dims.getD []).map .expr

def Expr.children : Expr → List Node
  | .ident _ => []
  | .const _ => []
  | .call func args => .expr func :: args.map .expr
  | .index var idx => [.expr var, .expr idx]
  | .access var field => [.expr var, .expr field]
  | .cast ty e => [.type ty, .expr e]
  | .unary _ e => [.expr e]
  | .binary _ left right => [.expr left, .expr right]
  | .assign _ lval rval => [.expr lval, .expr rval]

def Stmt.children : Stmt → List Node
  | .brk => []
  | .cont => []
  | .ret value => value.toList.map .expr
  | .block stats => stats.map .stmt
  | .expr e => [.expr e]
  | .decl d => .type d.ty :: d.declarators.map .declarator
  | .ite condition thenBranch elseBranch =>
    .expr condition :: .stmt thenBranch :: elseBranch.toList.map .stmt
  | .loop condition body => [.expr condition, .stmt body]

/-- The parts of a node, in source order. -/
def Node.children : Node → List Node
  | .expr e => e.children
  | .stmt s => s.children
  | .type ty => ty.children
  | .declarator d => .name d.id :: d.init.toList.map .expr
  | .parameter p => [.type p.ty, .name p.id]
  | .header h => .type h.ty :: .name h.id :: h.params.map .parameter
  | .function f => [.header f.header, .block f.body]
  | .struct s => .name s.id :: s.fields.map .declaration

/-- A node and, below it, the walks of its parts. -/
inductive Walk
  | node (root : Node) (below : List Walk)

/-! ## Unfolding -/

/-- The walk of a name, which has no parts. -/
def Walk.name (id : String) : Walk := .node (.name id) []

mutual

/-- The walk of an expression. -/
def Expr.walk : Expr → Walk
  | .ident id => .name id
  | .const c => .node (.expr (.const c)) []
  | .call func args => .node (.expr (.call func args)) (func.walk :: Expr.walks args)
  | .index var idx => .node (.expr (.index var idx)) [var.walk, idx.walk]
  | .access var field => .node (.expr (.access var field)) [var.walk, field.walk]
  | .cast ty e => .node (.expr (.cast ty e)) [ty.walk, e.walk]
  | .unary op e => .node (.expr (.unary op e)) [e.walk]
  | .binary op left right => .node (.expr (.binary op left right)) [left.walk, right.walk]
  | .assign op lval rval => .node (.expr (.assign op lval rval)) [lval.walk, rval.walk]

/-- The walk of a type. -/
def Ty.walk : Ty → Walk
  | ⟨.primitive kind, dims⟩ => .node (.type ⟨.primitive kind, dims⟩) (Expr.optionalWalks dims)
  | ⟨.reference id, dims⟩ =>
    .node (.type ⟨.reference id, dims⟩) (.name id :: Expr.optionalWalks dims)

/-- The walks of the dimensions of a type. -/
def Expr.optionalWalks : Option (List Expr) → List Walk
  | none => []
  | some es => Expr.walks es

/-- The walks of several expressions. -/
def Expr.walks : List Expr → List Walk
  | [] => []
  | e :: es => e.walk :: Expr.walks es

end

def Declarator.walk (d : Declarator) : Walk :=
  .node (.declarator d) (.name d.id :: d.init.toList.map Expr.walk)

def Declaration.walk (d : Declaration) : Walk :=
  .node (.declaration d) (d.ty.walk :: d.declarators.map Declarator.walk)

mutual

/-- The walk of a statement. -/
def Stmt.walk : Stmt → Walk
  | .brk => .node (.stmt .brk) []
  | .cont => .node (.stmt .cont) []
  | .ret value => .node (.stmt (.ret value)) (value.toList.map Expr.walk)
  | .block stats => .node (.stmt (.block stats)) (Stmt.walks stats)
  | .expr e => .node (.stmt (.expr e)) [e.walk]
  | .decl d => d.walk
  | .ite condition thenBranch elseBranch =>
    .node (.stmt (.ite condition thenBranch elseBranch))
      (condition.walk :: thenBranch.walk :: Stmt.optionalWalk elseBranch)
  | .loop condition body => .node (.stmt (.loop condition body)) [condition.walk, body.walk]

/-- The walk of a branch that may be missing. -/
def Stmt.optionalWalk : Option Stmt → List Walk
  | none => []
  | some s => [s.walk]

/-- The walks of several statements. -/
def Stmt.walks : List Stmt → List Walk
  | [] => []
  | s :: ss => s.walk :: Stmt.walks ss

end

def Parameter.walk (p : Parameter) : Walk :=
  .node (.parameter p) [p.ty.walk, .name p.id]

def Header.walk (h : Header) : Walk :=
  .node (.header h) (h.ty.walk :: .name h.id :: h.params.map Parameter.walk)

/-- The walk of a node. -/
def Node.walk : Node → Walk
  | .expr e => e.walk
  | .stmt s => s.walk
  | .type ty => ty.walk
  | .declarator d => d.walk
  | .parameter p => p.walk
  | .header h => h.walk
  | .function f => .node (.function f) [f.header.walk, (Stmt.block f.body).walk]
  | .struct s => .node (.struct s) (.name s.id :: s.fields.map Declaration.walk)

/-! ## Traversals -/

/-- Whether a traversal meets a node before or after the parts of the node. -/
inductive Order
  | pre
  | post
  deriving DecidableEq

mutual

/-- The nodes that a traversal meets, each with its depth. It goes below a node only if `descend`
holds of the node's kind. -/
def Walk.visits (order : Order) (descend : Kind → Bool) (depth : Nat) :
    Walk → List (Nat × Node)
  | .node root below =>
    let inner :=
      if descend root.kind then Walk.visitsBelow order descend (depth + 1) below else []
    match order with
    | .pre => (depth, root) :: inner
    | .post => inner ++ [(depth, root)]

/-- The nodes met in several walks, one after the other. -/
def Walk.visitsBelow (order : Order) (descend : Kind → Bool) (depth : Nat) :
    List Walk → List (Nat × Node)
  | [] => []
  | w :: ws => w.visits order descend depth ++ Walk.visitsBelow order descend depth ws

end

/-- The nodes met in a selective traversal from a root, whose depth is zero. -/
def Node.visits (order : Order) (descend : Kind → Bool) (n : Node) : List (Nat × Node) :=
  n.walk.visits order descend 0

/-! ## The walk unfolds the children -/

theorem Expr.walks_eq (es : List Expr) : Expr.walks es = es.map Expr.walk := by
  induction es with
  | nil => rfl
  | cons e es ih => simp [Expr.walks, ih]

theorem Expr.optionalWalks_eq (dims : Option (List Expr)) :
    Expr.optionalWalks dims = (dims.getD []).map Expr.walk := by
  cases dims with
  | none => rfl
  | some es => simp [Expr.optionalWalks, Expr.walks_eq]

theorem Stmt.walks_eq (ss : List Stmt) : Stmt.walks ss = ss.map Stmt.walk := by
  induction ss with
  | nil => rfl
  | cons s ss ih => simp [Stmt.walks, ih]

theorem Stmt.optionalWalk_eq (branch : Option Stmt) :
    Stmt.optionalWalk branch = branch.toList.map Stmt.walk := by
  cases branch <;> simp [Stmt.optionalWalk]

/-- The walk of a node is the node on top of the walks of its children. -/
theorem Node.walk_eq (n : Node) : n.walk = .node n (n.children.map Node.walk) := by
  cases n with
  | expr e =>
    cases e <;>
      simp [Node.walk, Node.children, Expr.walk, Expr.children, Walk.name, Expr.walks_eq,
        Function.comp_def]
  | stmt s =>
    cases s <;>
      simp [Node.walk, Node.children, Stmt.walk, Stmt.children, Stmt.walks_eq,
        Stmt.optionalWalk_eq, Declaration.walk, Function.comp_def]
  | type ty =>
    obtain ⟨base, dims⟩ := ty
    cases base <;>
      simp [Node.walk, Node.children, Ty.walk, Ty.children, Expr.optionalWalks_eq, Walk.name,
        Expr.walk, Function.comp_def]
  | declarator d => simp [Node.walk, Node.children, Declarator.walk, Walk.name, Expr.walk,
      Function.comp_def]
  | parameter p => simp [Node.walk, Node.children, Parameter.walk, Walk.name, Expr.walk]
  | header h => simp [Node.walk, Node.children, Header.walk, Walk.name, Expr.walk,
      Function.comp_def]
  | function f => simp [Node.walk, Node.children]
  | struct s => simp [Node.walk, Node.children, Declaration.walk, Walk.name, Expr.walk, Stmt.walk,
      Function.comp_def]

end SyntaxForest
