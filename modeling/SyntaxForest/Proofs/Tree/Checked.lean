import SyntaxForest.Proofs.Tree.Parts
import SyntaxForest.Tree.Check

/-!
# Checked trees

What is wrong with a node by itself is `Node.violation?`. At every node the walk of the check puts
that into an empty slot, keeps a full one, and goes on to the children either way
(`Node.examine_eq_foldl`). So a full slot is kept through a whole tree, and an empty one ends up
with the first violation in source order (`Node.examine_eq`). A tree passes the check exactly when
all its nodes are sound (`Node.check_eq_ok_iff_everywhere`).
-/

namespace SyntaxForest

/-- What is wrong with a node, whatever its parts are. -/
def Node.violation? : Node → Option TreeError
  | .expr (.const c) => c.violation?
  | .stmt (.decl d) =>
    if d.declarators.isEmpty then some (.emptyDeclaration d.ty.render) else none
  | _ => none

/-- Everything that is wrong in a tree, in source order. -/
def Node.violations (n : Node) : List TreeError := n.parts.filterMap Node.violation?

theorem Node.violations_eq (n : Node) :
    n.violations = n.violation?.toList ++ n.children.flatMap Node.violations := by
  rw [Node.violations, Node.parts_eq, List.filterMap_cons, List.filterMap_flatMap]
  cases n.violation? <;> rfl

/-! ## The slot at one node -/

theorem Constant.examine_eq (c : Constant) (slot : Option TreeError) :
    c.examine slot = slot.or (Node.expr (.const c)).violation? := by
  cases slot <;> rfl

theorem Declaration.examineNames_eq (d : Declaration) (slot : Option TreeError) :
    d.examineNames slot = slot.or (Node.declaration d).violation? := by
  rw [Declaration.examineNames, Node.violation?]
  cases slot with
  | none => simp
  | some e => simp

theorem Expr.examineAll_eq (es : List Expr) (slot : Option TreeError) :
    Expr.examineAll es slot = es.foldl (fun slot e => e.examine slot) slot := by
  induction es generalizing slot with
  | nil => rfl
  | cons e es ih => rw [Expr.examineAll, List.foldl_cons, ih]

theorem Expr.examineDims_eq (dims : Option (List Expr)) (slot : Option TreeError) :
    Expr.examineDims dims slot = (dims.getD []).foldl (fun slot e => e.examine slot) slot := by
  cases dims with
  | none => rfl
  | some es => exact Expr.examineAll_eq es slot

theorem Expr.examineOption_eq (value : Option Expr) (slot : Option TreeError) :
    Expr.examineOption value slot = value.toList.foldl (fun slot e => e.examine slot) slot := by
  cases value <;> rfl

theorem Stmt.examineAll_eq (ss : List Stmt) (slot : Option TreeError) :
    Stmt.examineAll ss slot = ss.foldl (fun slot s => s.examine slot) slot := by
  induction ss generalizing slot with
  | nil => rfl
  | cons s ss ih => rw [Stmt.examineAll, List.foldl_cons, ih]

theorem Stmt.examineBranch_eq (branch : Option Stmt) (slot : Option TreeError) :
    Stmt.examineBranch branch slot = branch.toList.foldl (fun slot s => s.examine slot) slot := by
  cases branch <;> rfl

/-- One step of the walk. A full slot is kept at the node and an empty one takes what is wrong with
it; in both cases the slot then goes through the children in turn. -/
theorem Node.examine_eq_foldl (n : Node) (slot : Option TreeError) :
    n.examine slot = n.children.foldl (fun slot m => m.examine slot) (slot.or n.violation?) := by
  cases n with
  | expr e =>
    cases e with
    | const c => exact c.examine_eq slot
    | _ =>
      simp [Node.examine, Expr.examine, Node.violation?, Node.children, Expr.children,
        Expr.examineAll_eq, List.foldl_map]
  | stmt s =>
    cases s with
    | decl d =>
      simp [Node.examine, Stmt.examine, Declaration.examine, Declaration.examineNames_eq,
        Node.children, Stmt.children, List.foldl_map]
    | _ =>
      simp [Node.examine, Stmt.examine, Node.violation?, Node.children, Stmt.children,
        Stmt.examineAll_eq, Stmt.examineBranch_eq, Expr.examineOption_eq, List.foldl_map]
  | type ty =>
    obtain ⟨base, dims⟩ := ty
    cases base <;>
      simp [Node.examine, Ty.examine, Node.violation?, Node.children, Ty.children,
        Expr.examineDims_eq, Expr.examine, List.foldl_map]
  | declarator d =>
    simp [Node.examine, Declarator.examine, Node.violation?, Node.children,
      Expr.examineOption_eq, Expr.examine, List.foldl_map]
  | parameter p =>
    simp [Node.examine, Parameter.examine, Node.violation?, Node.children, Expr.examine]
  | header h =>
    simp [Node.examine, Header.examine, Node.violation?, Node.children, Expr.examine,
      List.foldl_map]
  | function f =>
    simp [Node.examine, Node.violation?, Node.children, Stmt.examine]
  | struct s =>
    simp [Node.examine, Node.violation?, Node.children, Expr.examine, Stmt.examine,
      List.foldl_map]

/-! ## The slot after a walk -/

/-- What every child does to the slot, all of them do in turn. -/
theorem examine_children {ns : List Node}
    (h : ∀ m ∈ ns, ∀ slot, m.examine slot = slot.or m.violations.head?)
    (slot : Option TreeError) :
    ns.foldl (fun slot m => m.examine slot) slot =
      slot.or (ns.flatMap Node.violations).head? := by
  induction ns generalizing slot with
  | nil => simp
  | cons m ns ih =>
    rw [List.forall_mem_cons] at h
    rw [List.foldl_cons, h.1, ih h.2, Option.or_assoc, List.flatMap_cons, List.head?_append]

/-- The walk keeps a full slot, whatever else is wrong in the tree, and fills an empty one with the
first violation. -/
theorem Node.examine_eq (n : Node) (slot : Option TreeError) :
    n.examine slot = slot.or n.violations.head? := by
  revert slot
  apply Node.induction (Q := fun n => ∀ slot, n.examine slot = slot.or n.violations.head?) ?_ n
  intro n ih slot
  rw [Node.examine_eq_foldl, examine_children ih, Option.or_assoc, Node.violations_eq,
    List.head?_append, Option.head?_toList]

/-! ## The verdict of the check -/

/-- The verdict that reports the first of several violations. -/
def firstOf : List TreeError → Except TreeError Unit
  | [] => .ok ()
  | e :: _ => .error e

theorem firstOf_eq_ok {es : List TreeError} : firstOf es = .ok () ↔ es = [] := by
  cases es <;> simp [firstOf]

theorem firstOf_eq_error {es : List TreeError} {e : TreeError} (h : firstOf es = .error e) :
    e ∈ es := by
  cases es with
  | nil => cases h
  | cons e' es =>
    cases h
    exact List.mem_cons_self

/-- The check reports the first violation in source order, if there is any. -/
theorem Node.check_eq_first (n : Node) : n.check = firstOf n.violations := by
  rw [Node.check, Node.examine_eq, Option.none_or]
  cases n.violations <;> rfl

/-- What the check asks of a node by itself. -/
def Node.sound : Node → Prop
  | .expr (.const c) => c.validate = .ok ()
  | .stmt (.decl d) => d.declarators ≠ []
  | _ => True

theorem Constant.violation?_eq_none {c : Constant} :
    c.violation? = none ↔ c.validate = .ok () := by
  rw [Constant.violation?]
  cases c.validate <;> simp

theorem Node.violation?_eq_none {n : Node} : n.violation? = none ↔ n.sound := by
  cases n with
  | expr e =>
    cases e with
    | const c => exact Constant.violation?_eq_none
    | _ => simp [Node.violation?, Node.sound]
  | stmt s => cases s <;> simp [Node.violation?, Node.sound]
  | _ => simp [Node.violation?, Node.sound]

/-- A tree passes the check exactly when all its nodes are sound. -/
theorem Node.check_eq_ok_iff_everywhere (n : Node) :
    n.check = .ok () ↔ n.Everywhere Node.sound := by
  rw [Node.check_eq_first, firstOf_eq_ok, Node.violations, List.filterMap_eq_nil_iff]
  simp only [Node.violation?_eq_none, Node.Everywhere]

/-- A node passes the check when it is sound and its children pass. -/
theorem Node.check_eq_ok_iff (n : Node) :
    n.check = .ok () ↔ n.sound ∧ ∀ m ∈ n.children, m.check = .ok () := by
  simp only [Node.check_eq_ok_iff_everywhere]
  exact Node.everywhere_iff

theorem checkEach_eq_ok {α : Type} {check : α → Except TreeError Unit} {xs : List α} :
    checkEach check xs = .ok () ↔ ∀ x ∈ xs, check x = .ok () := by
  induction xs with
  | nil => simp [checkEach]
  | cons x xs ih =>
    rw [checkEach, List.forall_mem_cons, ← ih]
    cases check x <;> simp [bind, Except.bind]

end SyntaxForest
