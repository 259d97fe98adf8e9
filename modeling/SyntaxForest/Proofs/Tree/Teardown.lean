import Mathlib.Algebra.GroupWithZero.Nat
import Mathlib.Data.List.Perm.Basic
import SyntaxForest.Forest
import SyntaxForest.Proofs.Tree.Parts

/-!
# Teardown follows the traversal

Releasing a tree and walking over it are written down separately, each with its own account of the
parts of every kind of node. They agree: the kinds of the released nodes are those that a traversal
meets when it takes every node behind its parts (`Node.release_eq_postorder`).

A list of kinds does not say which node an entry stands for. Paths do: `Node.paths` lists the paths
to all parts of a tree in the order of release, so that it can be said of every single part when it
is released (`Node.BottomUp`).
-/

namespace SyntaxForest

/-! ## Parts before the node -/

/-- The node and everything below it, every node behind its parts. -/
def Node.postorder (n : Node) : List Node := (n.visits .post everyKind).map (·.2)

theorem Node.postorder_eq (n : Node) :
    n.postorder = n.children.flatMap Node.postorder ++ [n] := by
  rw [Node.postorder, Node.visits, Node.walk_eq]
  simp only [Walk.visits, everyKind, if_true, List.map_append]
  rw [Walk.visitsBelow_map_snd, List.flatMap_map]
  rfl

/-- Both orders meet the same nodes, each as often as the other. -/
theorem Node.postorder_perm_parts (n : Node) : n.postorder.Perm n.parts := by
  apply Node.induction (Q := fun n => n.postorder.Perm n.parts) ?_ n
  intro n ih
  rw [Node.postorder_eq, Node.parts_eq]
  have below : (n.children.flatMap Node.postorder).Perm (n.children.flatMap Node.parts) :=
    List.Perm.flatMap_left _ ih
  exact (below.append_right [n]).trans (List.perm_append_singleton _ _)

/-! ## What is released -/

theorem Expr.releaseAll_eq (es : List Expr) : Expr.releaseAll es = es.flatMap Expr.release := by
  induction es with
  | nil => rfl
  | cons e es ih => rw [Expr.releaseAll, ih, List.flatMap_cons]

theorem Expr.releaseDims_eq (dims : Option (List Expr)) :
    Expr.releaseDims dims = (dims.getD []).flatMap Expr.release := by
  cases dims with
  | none => rfl
  | some es => exact Expr.releaseAll_eq es

theorem Expr.releaseOption_eq (e : Option Expr) :
    Expr.releaseOption e = e.toList.flatMap Expr.release := by
  cases e <;> simp [Expr.releaseOption]

theorem Stmt.releaseAll_eq (ss : List Stmt) : Stmt.releaseAll ss = ss.flatMap Stmt.release := by
  induction ss with
  | nil => rfl
  | cons s ss ih => rw [Stmt.releaseAll, ih, List.flatMap_cons]

theorem Stmt.releaseOption_eq (branch : Option Stmt) :
    Stmt.releaseOption branch = branch.toList.flatMap Stmt.release := by
  cases branch <;> simp [Stmt.releaseOption]

/-- A node is released behind its children, and nothing else is. -/
theorem Node.release_eq (n : Node) : n.release = n.children.flatMap Node.release ++ [n.kind] := by
  cases n with
  | expr e =>
    cases e <;>
      simp [Node.release, Node.children, Node.kind, Expr.release, Expr.children, Expr.kind,
        Expr.releaseAll_eq, List.flatMap_map]
  | stmt s =>
    cases s <;>
      simp [Node.release, Node.children, Node.kind, Stmt.release, Stmt.children, Stmt.kind,
        Stmt.releaseAll_eq, Stmt.releaseOption_eq, Expr.releaseOption_eq, Declaration.release,
        List.flatMap_map]
  | type ty =>
    obtain ⟨base, dims⟩ := ty
    cases base <;>
      simp [Node.release, Node.children, Node.kind, Ty.release, Ty.children, TypeBase.release,
        Expr.releaseDims_eq, Expr.release, List.flatMap_map]
  | declarator d =>
    simp [Node.release, Node.children, Node.kind, Declarator.release, Expr.releaseOption_eq,
      Expr.release, List.flatMap_map]
  | parameter p => simp [Node.release, Node.children, Node.kind, Parameter.release, Expr.release]
  | header h =>
    simp [Node.release, Node.children, Node.kind, Header.release, Expr.release, List.flatMap_map]
  | function f =>
    simp [Node.release, Node.children, Node.kind, FunctionDecl.release, Stmt.release]
  | struct s =>
    simp [Node.release, Node.children, Node.kind, StructDecl.release, Expr.release, Stmt.release,
      List.flatMap_map]

theorem Node.release_eq_postorder (n : Node) : n.release = n.postorder.map Node.kind := by
  apply Node.induction (Q := fun n => n.release = n.postorder.map Node.kind) ?_ n
  intro n ih
  rw [Node.release_eq, Node.postorder_eq, List.map_append, List.map_flatMap,
    List.flatMap_congr ih]
  rfl

/-! ## Which node an entry stands for -/

/-- The part of a tree to which a path leads. The path takes a child by its place, then a child of
that child, and so on. -/
def Node.at? (n : Node) : List Nat → Option Node
  | [] => some n
  | place :: path => n.children[place]?.bind fun m => m.at? path

/-- An order in which every part of a tree comes once, and behind all parts below it: a path that
goes on from another one stands before it. -/
structure Node.BottomUp (n : Node) (order : List (List Nat)) : Prop where
  mem_iff (path : List Nat) : path ∈ order ↔ (n.at? path).isSome
  nodup : order.Nodup
  parts_first : order.Pairwise fun earlier later => ¬ earlier <+: later

mutual

/-- The paths to all parts of a walk, each behind the paths that go on from it. -/
def Walk.paths : Walk → List (List Nat)
  | .node _ below =>
    ((Walk.pathLists below).zipIdx.flatMap fun (paths, place) => paths.map (place :: ·)) ++ [[]]

/-- The paths in each of several walks. -/
def Walk.pathLists : List Walk → List (List (List Nat))
  | [] => []
  | w :: ws => w.paths :: Walk.pathLists ws

end

/-- The paths to all parts of a tree, in the order of `Node.postorder`. -/
def Node.paths (n : Node) : List (List Nat) := n.walk.paths

theorem Walk.pathLists_eq (ws : List Walk) : Walk.pathLists ws = ws.map Walk.paths := by
  induction ws with
  | nil => rfl
  | cons w ws ih => rw [Walk.pathLists, ih, List.map_cons]

theorem Node.paths_eq (n : Node) :
    n.paths = (n.children.zipIdx.flatMap fun (m, place) => m.paths.map (place :: ·)) ++ [[]] := by
  rw [Node.paths, Node.walk_eq, Walk.paths, Walk.pathLists_eq, List.map_map, List.zipIdx_map,
    List.flatMap_map]
  rfl

theorem Node.mem_paths (n : Node) (path : List Nat) : path ∈ n.paths ↔ (n.at? path).isSome := by
  induction path generalizing n with
  | nil => simp [n.paths_eq, Node.at?]
  | cons place path ih =>
    rw [Node.paths_eq, Node.at?]
    cases hm : n.children[place]? with
    | none => simp [List.mem_zipIdx_iff_getElem?, hm]
    | some m => simp [List.mem_zipIdx_iff_getElem?, hm, ih]

/-- No path stands before one that goes on from it, nor before itself. -/
theorem Node.pairwise_paths (n : Node) :
    n.paths.Pairwise fun earlier later => ¬ earlier <+: later := by
  apply Node.induction (Q := fun n => n.paths.Pairwise fun p q => ¬ p <+: q) ?_ n
  intro n ih
  have places : n.children.zipIdx.Pairwise fun x y => x.2 ≠ y.2 := by
    have nodup : (n.children.zipIdx.map Prod.snd).Nodup := by
      rw [List.zipIdx_map_snd]
      exact List.nodup_range'
    exact List.pairwise_map.mp nodup
  rw [Node.paths_eq, List.pairwise_append, List.pairwise_flatMap]
  refine ⟨⟨?_, ?_⟩, by simp, ?_⟩
  · -- Below one child, the first step is the same everywhere.
    rintro ⟨m, place⟩ hm
    have hm : m ∈ n.children := List.mem_of_getElem? (List.mem_zipIdx_iff_getElem?.mp hm)
    simpa [List.pairwise_map] using ih m hm
  · -- Below two children, the first steps differ.
    refine places.imp ?_
    rintro ⟨m, place⟩ ⟨m', place'⟩ hne p hp q hq
    simp only [List.mem_map] at hp hq
    obtain ⟨p, -, rfl⟩ := hp
    obtain ⟨q, -, rfl⟩ := hq
    rw [List.cons_prefix_cons]
    exact fun h => hne h.1
  · -- The empty path goes on to all others, and comes last.
    intro p hp q hq
    simp only [List.mem_flatMap, List.mem_map] at hp
    obtain ⟨-, -, p, -, rfl⟩ := hp
    rw [List.mem_singleton.mp hq]
    simp

theorem Node.bottomUp_paths (n : Node) : n.BottomUp n.paths where
  mem_iff := n.mem_paths
  nodup := by
    refine n.pairwise_paths.imp ?_
    rintro p q hpq rfl
    exact hpq (List.prefix_refl p)
  parts_first := n.pairwise_paths

/-- The paths lead to the nodes of the traversal, one by one. -/
theorem Node.map_at?_paths (n : Node) : n.paths.map n.at? = n.postorder.map some := by
  apply Node.induction (Q := fun n => n.paths.map n.at? = n.postorder.map some) ?_ n
  intro n ih
  have child : ∀ x ∈ n.children.zipIdx,
      (x.1.paths.map (x.2 :: ·)).map n.at? = x.1.postorder.map some := by
    rintro ⟨m, place⟩ hm
    have hm := List.mem_zipIdx_iff_getElem?.mp hm
    rw [← ih m (List.mem_of_getElem? hm), List.map_map]
    apply List.map_congr_left
    intro path _
    simp [Node.at?, hm]
  calc n.paths.map n.at?
    _ = (n.children.zipIdx.flatMap fun x => x.1.postorder.map some) ++ [some n] := by
      rw [Node.paths_eq, List.map_append, List.map_flatMap, List.flatMap_congr child]
      rfl
    _ = ((n.children.zipIdx.map Prod.fst).flatMap fun m => m.postorder.map some) ++ [some n] := by
      rw [List.flatMap_map]
    _ = n.postorder.map some := by
      rw [List.zipIdx_map_fst, Node.postorder_eq, List.map_append, List.map_flatMap]
      rfl

/-! ## Release and traversal -/

/-- Releasing a tree goes over its nodes as a traversal does that meets every node behind its parts:
each part is released once and behind all parts below it, the root comes last, and every kind comes
as often as in a traversal that meets the node first. A forest releases as many nodes as there are
in its trees. -/
theorem release_follows_traversal :
    (∀ n : Node,
      n.release = (n.visits .post everyKind).map (·.2.kind) ∧
      (∃ order, n.BottomUp order ∧
        (order.map fun path => (n.at? path).map Node.kind) = n.release.map some) ∧
      n.release.getLast? = some n.kind ∧
      ∀ kind, n.release.count kind = ((n.visits .pre everyKind).map (·.2.kind)).count kind) ∧
    ∀ (forest : Forest) (order : Order),
      forest.releaseCount = (forest.map fun n => (n.visits order everyKind).length).sum := by
  have pre (n : Node) : (n.visits .pre everyKind).map (·.2.kind) = n.parts.map Node.kind := by
    rw [Node.parts, List.map_map]
    rfl
  have perm (n : Node) : n.release.Perm (n.parts.map Node.kind) :=
    n.release_eq_postorder ▸ n.postorder_perm_parts.map Node.kind
  refine ⟨fun n => ⟨?_, ⟨n.paths, n.bottomUp_paths, ?_⟩, ?_, ?_⟩, ?_⟩
  · rw [Node.release_eq_postorder, Node.postorder, List.map_map]
    rfl
  · calc (n.paths.map fun path => (n.at? path).map Node.kind)
      _ = (n.paths.map n.at?).map (Option.map Node.kind) := by simp [Function.comp_def]
      _ = n.release.map some := by
        rw [Node.map_at?_paths, Node.release_eq_postorder]
        simp [Function.comp_def]
  · rw [Node.release_eq]
    simp
  · intro kind
    rw [pre, (perm n).count_eq]
  · intro forest order
    have length (n : Node) : (n.visits order everyKind).length = n.release.length := by
      cases order with
      | pre => rw [(perm n).length_eq, List.length_map, Node.parts, List.length_map]
      | post => rw [Node.release_eq_postorder, List.length_map, Node.postorder, List.length_map]
    simp only [Forest.releaseCount, List.length_flatMap, length]

/-- The declaration of an array with a size and an initial value: the names of the type and of the
size are released before the type, and the type before the declarator with its two names. With a
name behind it, the declaration makes a forest of eight nodes. -/
theorem release_follows_traversal_array :
    let array : Node :=
      .declaration ⟨⟨.reference "t", some [.ident "n"]⟩, [⟨"a", some (.ident "b")⟩]⟩
    let kinds : List Kind :=
      [.identifier, .identifier, .type, .identifier, .identifier, .declarator, .declaration]
    (array.visits .post everyKind).map (·.2.kind) = kinds ∧
    (∃ order, array.BottomUp order ∧
      (order.map fun path => (array.at? path).map Node.kind) = kinds.map some) ∧
    ((array.visits .pre everyKind).map (·.2.kind)).count .identifier = 4 ∧
    ([array, .name "c"].map fun n => (n.visits .pre everyKind).length).sum = 8 := by
  intro array kinds
  obtain ⟨tree, total⟩ := release_follows_traversal
  obtain ⟨walk, places, -, count⟩ := tree array
  have hrelease : array.release = kinds := rfl
  rw [hrelease] at walk places
  refine ⟨walk.symm, places, ?_, ?_⟩
  · rw [← count, hrelease]
    rfl
  · rw [← total [array, .name "c"] .pre]
    rfl

end SyntaxForest
