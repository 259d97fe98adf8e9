import SyntaxForest.Proofs.Tree.Teardown

/-!
# Replacing the constants of a tree

`Node.mapConstants` puts another constant in the place of every constant of a tree and leaves all
else as it is. The children of the new tree are the new children (`Node.children_mapConstants`), so
what only depends on the kinds of the nodes stays the same (`Node.release_mapConstants`).
-/

namespace SyntaxForest

mutual

/-- The expression with every constant replaced. -/
def Expr.mapConstants (f : Constant → Constant) : Expr → Expr
  | .ident name => .ident name
  | .const c => .const (f c)
  | .call func args => .call (func.mapConstants f) (Expr.mapConstantsAll f args)
  | .index var idx => .index (var.mapConstants f) (idx.mapConstants f)
  | .access var field => .access (var.mapConstants f) (field.mapConstants f)
  | .cast ty e => .cast (ty.mapConstants f) (e.mapConstants f)
  | .unary op e => .unary op (e.mapConstants f)
  | .binary op left right => .binary op (left.mapConstants f) (right.mapConstants f)
  | .assign op lval rval => .assign op (lval.mapConstants f) (rval.mapConstants f)

/-- The type with every constant of its dimensions replaced. -/
def Ty.mapConstants (f : Constant → Constant) : Ty → Ty
  | ⟨base, dims⟩ => ⟨base, Expr.mapConstantsDims f dims⟩

/-- Missing dimensions stay missing. -/
def Expr.mapConstantsDims (f : Constant → Constant) : Option (List Expr) → Option (List Expr)
  | none => none
  | some es => some (Expr.mapConstantsAll f es)

def Expr.mapConstantsAll (f : Constant → Constant) : List Expr → List Expr
  | [] => []
  | e :: es => e.mapConstants f :: Expr.mapConstantsAll f es

end

def Declarator.mapConstants (f : Constant → Constant) (d : Declarator) : Declarator :=
  ⟨d.id, d.init.map (Expr.mapConstants f)⟩

def Declaration.mapConstants (f : Constant → Constant) (d : Declaration) : Declaration :=
  ⟨d.ty.mapConstants f, d.declarators.map (Declarator.mapConstants f)⟩

mutual

/-- The statement with every constant replaced. -/
def Stmt.mapConstants (f : Constant → Constant) : Stmt → Stmt
  | .brk => .brk
  | .cont => .cont
  | .ret value => .ret (value.map (Expr.mapConstants f))
  | .block stats => .block (Stmt.mapConstantsAll f stats)
  | .expr e => .expr (e.mapConstants f)
  | .decl d => .decl (d.mapConstants f)
  | .ite condition thenBranch elseBranch =>
    .ite (condition.mapConstants f) (thenBranch.mapConstants f)
      (Stmt.mapConstantsBranch f elseBranch)
  | .loop condition body => .loop (condition.mapConstants f) (body.mapConstants f)

def Stmt.mapConstantsBranch (f : Constant → Constant) : Option Stmt → Option Stmt
  | none => none
  | some s => some (s.mapConstants f)

def Stmt.mapConstantsAll (f : Constant → Constant) : List Stmt → List Stmt
  | [] => []
  | s :: ss => s.mapConstants f :: Stmt.mapConstantsAll f ss

end

def Parameter.mapConstants (f : Constant → Constant) (p : Parameter) : Parameter :=
  ⟨p.ty.mapConstants f, p.id⟩

def Header.mapConstants (f : Constant → Constant) (h : Header) : Header :=
  ⟨h.ty.mapConstants f, h.id, h.params.map (Parameter.mapConstants f)⟩

/-- The tree with every constant replaced. -/
def Node.mapConstants (f : Constant → Constant) : Node → Node
  | .expr e => .expr (e.mapConstants f)
  | .stmt s => .stmt (s.mapConstants f)
  | .type ty => .type (ty.mapConstants f)
  | .declarator d => .declarator (d.mapConstants f)
  | .parameter p => .parameter (p.mapConstants f)
  | .header h => .header (h.mapConstants f)
  | .function g => .function ⟨g.header.mapConstants f, Stmt.mapConstantsAll f g.body⟩
  | .struct s => .struct ⟨s.id, s.fields.map (Declaration.mapConstants f)⟩

section

variable (f : Constant → Constant)

theorem Expr.mapConstantsAll_eq (es : List Expr) :
    Expr.mapConstantsAll f es = es.map (Expr.mapConstants f) := by
  induction es with
  | nil => rfl
  | cons e es ih => rw [Expr.mapConstantsAll, ih, List.map_cons]

theorem Stmt.mapConstantsAll_eq (ss : List Stmt) :
    Stmt.mapConstantsAll f ss = ss.map (Stmt.mapConstants f) := by
  induction ss with
  | nil => rfl
  | cons s ss ih => rw [Stmt.mapConstantsAll, ih, List.map_cons]

theorem Expr.mapConstantsDims_eq (dims : Option (List Expr)) :
    Expr.mapConstantsDims f dims = dims.map (List.map (Expr.mapConstants f)) := by
  cases dims with
  | none => rfl
  | some es => rw [Expr.mapConstantsDims, Expr.mapConstantsAll_eq, Option.map_some]

theorem Node.kind_mapConstants (n : Node) : (n.mapConstants f).kind = n.kind := by
  cases n with
  | expr e => cases e <;> rfl
  | stmt s => cases s <;> rfl
  | _ => rfl

theorem Node.children_mapConstants (n : Node) :
    (n.mapConstants f).children = n.children.map (Node.mapConstants f) := by
  cases n with
  | expr e =>
    cases e <;>
      simp [Node.mapConstants, Node.children, Expr.mapConstants, Expr.children,
        Expr.mapConstantsAll_eq]
  | stmt s =>
    cases s with
    | ret value => cases value <;> rfl
    | ite condition thenBranch elseBranch => cases elseBranch <;> rfl
    | _ =>
      simp [Node.mapConstants, Node.children, Stmt.mapConstants, Stmt.children,
        Stmt.mapConstantsAll_eq, Declaration.mapConstants]
  | type ty =>
    obtain ⟨base, dims⟩ := ty
    cases base <;> cases dims <;>
      simp [Node.mapConstants, Node.children, Ty.mapConstants, Ty.children, Expr.mapConstants,
        Expr.mapConstantsDims_eq]
  | declarator d =>
    obtain ⟨id, init⟩ := d
    cases init <;> rfl
  | parameter p => rfl
  | header h =>
    simp [Node.mapConstants, Node.children, Header.mapConstants, Expr.mapConstants]
  | function g => rfl
  | struct s =>
    simp [Node.mapConstants, Node.children, Expr.mapConstants, Stmt.mapConstants]

/-- The kinds of the released nodes do not depend on the constants. -/
theorem Node.release_mapConstants (n : Node) : (n.mapConstants f).release = n.release := by
  apply Node.induction (Q := fun n => (n.mapConstants f).release = n.release) ?_ n
  intro n ih
  rw [Node.release_eq, Node.children_mapConstants, Node.kind_mapConstants, List.flatMap_map,
    List.flatMap_congr ih, ← Node.release_eq]

end

end SyntaxForest
