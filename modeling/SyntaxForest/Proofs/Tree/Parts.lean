import SyntaxForest.Tree.Walk

/-!
# The parts of a tree

`Node.parts` lists a node and everything below it, as a full traversal meets them. A condition on
the names, constants or types of a tree is a condition on single nodes that holds of all its parts;
`Node.everywhere_iff` takes such a condition from a node to its children.
-/

namespace SyntaxForest

/-- Every kind of node is descended into. -/
def everyKind (_ : Kind) : Bool := true

/-- The node and everything below it, in source order. -/
def Node.parts (n : Node) : List Node := (n.visits .pre everyKind).map (·.2)

mutual

/-- What a traversal meets does not depend on the depth from which it counts. -/
theorem Walk.visits_map_snd (order : Order) (descend : Kind → Bool) (depth : Nat) (w : Walk) :
    (w.visits order descend depth).map (·.2) = (w.visits order descend 0).map (·.2) := by
  match w with
  | .node root below =>
    cases order <;> cases hroot : descend root.kind <;>
      simp [Walk.visits, hroot, Walk.visitsBelow_map_snd _ descend (depth + 1) below,
        Walk.visitsBelow_map_snd _ descend 1 below]

theorem Walk.visitsBelow_map_snd (order : Order) (descend : Kind → Bool) (depth : Nat)
    (ws : List Walk) :
    (Walk.visitsBelow order descend depth ws).map (·.2) =
      ws.flatMap fun w => (w.visits order descend 0).map (·.2) := by
  match ws with
  | [] => simp [Walk.visitsBelow]
  | w :: ws =>
    simp only [Walk.visitsBelow, List.map_append, List.flatMap_cons]
    rw [Walk.visits_map_snd order descend depth w,
      Walk.visitsBelow_map_snd order descend depth ws]

end

/-- The parts of a node are the node itself and the parts of its children. -/
theorem Node.parts_eq (n : Node) : n.parts = n :: n.children.flatMap Node.parts := by
  rw [Node.parts, Node.visits, Node.walk_eq]
  simp only [Walk.visits, everyKind, if_true, List.map_cons]
  rw [Walk.visitsBelow_map_snd, List.flatMap_map]
  rfl

mutual

theorem Walk.induction {Q : Node → Prop} (step : ∀ n, (∀ m ∈ n.children, Q m) → Q n) (w : Walk)
    (n : Node) (hn : n.walk = w) : Q n := by
  match w with
  | .node root below =>
    rw [Node.walk_eq, Walk.node.injEq] at hn
    apply step
    intro m hm
    exact Walk.induction_below step below m (hn.2 ▸ List.mem_map_of_mem hm)

theorem Walk.induction_below {Q : Node → Prop} (step : ∀ n, (∀ m ∈ n.children, Q m) → Q n)
    (ws : List Walk) (n : Node) (hn : n.walk ∈ ws) : Q n := by
  match ws with
  | [] => cases hn
  | w :: ws =>
    rcases List.mem_cons.mp hn with hn | hn
    · exact Walk.induction step w n hn
    · exact Walk.induction_below step ws n hn

end

/-- What follows for a node from its children holds of every node. -/
theorem Node.induction {Q : Node → Prop} (step : ∀ n, (∀ m ∈ n.children, Q m) → Q n) (n : Node) :
    Q n :=
  Walk.induction step n.walk n rfl

/-- A condition on single nodes holds of a node and of everything below it. -/
def Node.Everywhere (P : Node → Prop) (n : Node) : Prop := ∀ m ∈ n.parts, P m

namespace Node

variable {P Q : Node → Prop}

instance [DecidablePred P] (n : Node) : Decidable (n.Everywhere P) :=
  inferInstanceAs (Decidable (∀ m ∈ n.parts, P m))

theorem everywhere_iff {n : Node} :
    n.Everywhere P ↔ P n ∧ ∀ m ∈ n.children, m.Everywhere P := by
  rw [Everywhere, parts_eq, List.forall_mem_cons]
  simp only [List.mem_flatMap, forall_exists_index, and_imp, Everywhere]
  grind

theorem Everywhere.self {n : Node} (h : n.Everywhere P) : P n := (everywhere_iff.mp h).1

theorem Everywhere.child {n m : Node} (h : n.Everywhere P) (hm : m ∈ n.children) :
    m.Everywhere P := (everywhere_iff.mp h).2 m hm

theorem Everywhere.and {n : Node} (hP : n.Everywhere P) (hQ : n.Everywhere Q) :
    n.Everywhere fun m => P m ∧ Q m := fun m hm => ⟨hP m hm, hQ m hm⟩

end Node

/-! ## Fractional payloads -/

/-- The fractional payload of a node, if it is a constant that holds one. -/
def Node.fraction? : Node → Option Numeric.Double
  | .expr (.const ⟨_, .float x⟩) => some x
  | _ => none

/-- All fractional payloads in a tree, in source order. -/
def Node.fractions (n : Node) : List Numeric.Double := n.parts.filterMap Node.fraction?

theorem Node.fractions_eq (n : Node) :
    n.fractions = n.fraction?.toList ++ n.children.flatMap Node.fractions := by
  rw [Node.fractions, Node.parts_eq, List.filterMap_cons, List.filterMap_flatMap]
  cases n.fraction? <;> rfl

end SyntaxForest
