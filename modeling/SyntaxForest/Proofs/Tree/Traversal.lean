import Mathlib.Data.List.Lex
import Mathlib.Data.List.Sort
import SyntaxForest.Proofs.Tree.Teardown

/-!
# Selective traversals

A traversal may pass over the parts of some nodes. Which nodes it still meets is a question about
their places, since equal nodes can stand at several places of a tree: it meets the nodes whose
paths lead only through nodes that it goes below (`Node.Reached`). It takes them in the order of the
full traversal, which is the lexicographic order of the paths (`Node.TopDown`), and at the same
depths, which are the lengths of the paths (`visits_reached`).
-/

namespace SyntaxForest

/-! ## One level of a traversal -/

theorem Walk.visitsBelow_eq (order : Order) (descend : Kind → Bool) (depth : Nat)
    (ws : List Walk) :
    Walk.visitsBelow order descend depth ws = ws.flatMap (Walk.visits order descend depth) := by
  induction ws with
  | nil => rfl
  | cons w ws ih => rw [Walk.visitsBelow, ih, List.flatMap_cons]

/-- The nodes met in a selective traversal, counted from the given depth. -/
def Node.visitsFrom (order : Order) (descend : Kind → Bool) (depth : Nat) (n : Node) :
    List (Nat × Node) :=
  n.walk.visits order descend depth

theorem Node.visitsFrom_pre (descend : Kind → Bool) (depth : Nat) (n : Node) :
    n.visitsFrom .pre descend depth =
      (depth, n) ::
        if descend n.kind then n.children.flatMap (Node.visitsFrom .pre descend (depth + 1))
        else [] := by
  rw [Node.visitsFrom, Node.walk_eq, Walk.visits, Walk.visitsBelow_eq, List.flatMap_map]
  rfl

theorem Node.visitsFrom_post (descend : Kind → Bool) (depth : Nat) (n : Node) :
    n.visitsFrom .post descend depth =
      (if descend n.kind then n.children.flatMap (Node.visitsFrom .post descend (depth + 1))
        else []) ++ [(depth, n)] := by
  rw [Node.visitsFrom, Node.walk_eq, Walk.visits, Walk.visitsBelow_eq, List.flatMap_map]
  rfl

/-- Both orders meet the same nodes at the same depths, each as often as the other. -/
theorem Node.visitsFrom_perm (descend : Kind → Bool) (n : Node) (depth : Nat) :
    (n.visitsFrom .post descend depth).Perm (n.visitsFrom .pre descend depth) := by
  revert depth
  apply Node.induction (Q := fun n => ∀ depth,
    (n.visitsFrom .post descend depth).Perm (n.visitsFrom .pre descend depth)) ?_ n
  intro n ih depth
  rw [visitsFrom_pre, visitsFrom_post]
  refine (List.perm_append_singleton _ _).trans (List.Perm.cons _ ?_)
  split
  · exact List.Perm.flatMap_left _ fun m hm => ih m hm (depth + 1)
  · exact List.Perm.refl _

/-! ## The paths in the order of a traversal -/

/-- An order in which every part of a tree comes once, before all parts below it, and what is below
one child before what is below the next: the lexicographic order of the paths. -/
structure Node.TopDown (n : Node) (order : List (List Nat)) : Prop where
  mem_iff (path : List Nat) : path ∈ order ↔ (n.at? path).isSome
  sorted : order.Pairwise (· < ·)

/-- The paths to all parts of a tree, in lexicographic order. -/
def Node.sortedPaths (n : Node) : List (List Nat) := n.paths.mergeSort fun p q => p ≤ q

theorem Node.sortedPaths_perm (n : Node) : n.sortedPaths.Perm n.paths :=
  List.mergeSort_perm _ _

theorem Node.topDown_sortedPaths (n : Node) : n.TopDown n.sortedPaths where
  mem_iff path := n.sortedPaths_perm.mem_iff.trans (n.mem_paths path)
  sorted := by
    have le : n.sortedPaths.Pairwise (· ≤ ·) := List.pairwise_mergeSort' (· ≤ ·) n.paths
    have ne : n.sortedPaths.Nodup := n.sortedPaths_perm.nodup_iff.mpr n.bottomUp_paths.nodup
    exact (le.and ne).imp fun h => lt_of_le_of_ne h.1 h.2

/-- The root comes first, then the paths through each child in turn. -/
theorem Node.sortedPaths_eq (n : Node) :
    n.sortedPaths =
      [] :: n.children.zipIdx.flatMap fun (m, place) => m.sortedPaths.map (place :: ·) := by
  have places : n.children.zipIdx.Pairwise fun x y => x.2 < y.2 := by
    have range : (n.children.zipIdx.map Prod.snd).Pairwise (· < ·) := by
      rw [List.zipIdx_map_snd]
      exact List.pairwise_lt_range'
    exact List.pairwise_map.mp range
  -- Both sides are sorted, so they are equal once they hold the same paths.
  refine List.Perm.eq_of_pairwise' n.topDown_sortedPaths.sorted ?_ ?_
  · rw [List.pairwise_cons, List.pairwise_flatMap]
    refine ⟨?_, ?_, places.imp ?_⟩
    · intro p hp
      simp only [List.mem_flatMap, List.mem_map] at hp
      obtain ⟨-, -, p, -, rfl⟩ := hp
      exact List.nil_lt_cons _ _
    · rintro ⟨m, place⟩ -
      simpa [List.pairwise_map] using m.topDown_sortedPaths.sorted
    · rintro ⟨m, place⟩ ⟨m', place'⟩ hlt p hp q hq
      simp only [List.mem_map] at hp hq
      obtain ⟨p, -, rfl⟩ := hp
      obtain ⟨q, -, rfl⟩ := hq
      exact List.cons_lt_cons_iff.mpr (.inl hlt)
  · refine n.sortedPaths_perm.trans ?_
    rw [Node.paths_eq]
    refine (List.perm_append_singleton _ _).trans (List.Perm.cons _ ?_)
    exact List.Perm.flatMap_left _ fun x _ => (x.1.sortedPaths_perm.map _).symm

/-! ## Which places are reached -/

variable {n : Node} {descend : Kind → Bool}

/-- Whether a traversal comes to the end of a path: it goes below every node that the path leads
through before its end. -/
def Node.Reached (n : Node) (descend : Kind → Bool) (path : List Nat) : Prop :=
  ∀ passed < path.length, ∀ m ∈ n.at? (path.take passed), descend m.kind = true

instance (n : Node) (descend : Kind → Bool) : DecidablePred (n.Reached descend) := fun path =>
  inferInstanceAs (Decidable
    (∀ passed < path.length, ∀ m ∈ n.at? (path.take passed), descend m.kind = true))

theorem Node.reached_nil : n.Reached descend [] := by simp [Node.Reached]

theorem Node.reached_cons {m : Node} {place : Nat} (hm : n.children[place]? = some m)
    (path : List Nat) :
    n.Reached descend (place :: path) ↔ descend n.kind = true ∧ m.Reached descend path := by
  constructor
  · intro h
    refine ⟨h 0 (by simp) n rfl, ?_⟩
    intro passed hpassed
    simpa [Node.at?, hm] using h (passed + 1) (by simpa using hpassed)
  · rintro ⟨hn, h⟩ passed hpassed
    cases passed with
    | zero => simpa [Node.at?] using hn
    | succ passed => simpa [Node.at?, hm] using h passed (by simpa using hpassed)

/-- What a traversal records at the end of a path: the depth, counted from that of the root, and the
node. -/
def Node.visitAt? (n : Node) (depth : Nat) (path : List Nat) : Option (Nat × Node) :=
  (n.at? path).map fun m => (depth + path.length, m)

theorem Node.visitAt?_cons {m : Node} {place : Nat} (hm : n.children[place]? = some m)
    (depth : Nat) (path : List Nat) :
    n.visitAt? depth (place :: path) = m.visitAt? (depth + 1) path := by
  simp [Node.visitAt?, Node.at?, hm, Nat.add_assoc, Nat.add_comm 1]

/-- Below a child, a traversal reaches what a traversal of the child reaches, if it goes there. -/
theorem Node.map_visitAt?_child {m : Node} {place : Nat} (hm : n.children[place]? = some m)
    (depth : Nat) (paths : List (List Nat)) :
    ((paths.map (place :: ·)).filter fun path => n.Reached descend path).map (n.visitAt? depth) =
      if descend n.kind then
        (paths.filter fun path => m.Reached descend path).map (m.visitAt? (depth + 1))
      else [] := by
  rw [List.filter_map, List.map_map]
  cases h : descend n.kind with
  | false => simp [Function.comp_def, reached_cons hm, h]
  | true => simp [Function.comp_def, reached_cons hm, h, visitAt?_cons hm]

theorem flatMap_fst_zipIdx {α β : Type} (l : List α) (f : α → List β) :
    (l.zipIdx.flatMap fun x => f x.1) = l.flatMap f := by
  rw [← List.flatMap_map Prod.fst, List.zipIdx_map_fst]

/-- A traversal meets the nodes at the places that it reaches, in lexicographic order. -/
theorem Node.map_some_visitsFrom (descend : Kind → Bool) (n : Node) (depth : Nat) :
    (n.visitsFrom .pre descend depth).map some =
      (n.sortedPaths.filter fun path => n.Reached descend path).map (n.visitAt? depth) := by
  revert depth
  apply Node.induction (Q := fun n => ∀ depth, (n.visitsFrom .pre descend depth).map some =
    (n.sortedPaths.filter fun path => n.Reached descend path).map (n.visitAt? depth)) ?_ n
  intro n ih depth
  have child : ∀ x ∈ n.children.zipIdx,
      ((x.1.sortedPaths.map (x.2 :: ·)).filter fun path => n.Reached descend path).map
        (n.visitAt? depth) =
      if descend n.kind then (x.1.visitsFrom .pre descend (depth + 1)).map some else [] := by
    rintro ⟨m, place⟩ hm
    have hm := List.mem_zipIdx_iff_getElem?.mp hm
    rw [map_visitAt?_child hm, ih m (List.mem_of_getElem? hm)]
  rw [sortedPaths_eq, List.filter_cons_of_pos (by simpa using reached_nil), List.map_cons,
    List.filter_flatMap, List.map_flatMap, List.flatMap_congr child, visitsFrom_pre]
  -- The root is recorded in any case; the rest is there when the traversal goes below it.
  cases descend n.kind with
  | false => simp [visitAt?, at?]
  | true =>
    have below := flatMap_fst_zipIdx n.children fun m =>
      (m.visitsFrom .pre descend (depth + 1)).map some
    simp [visitAt?, at?, List.map_flatMap, below]

/-! ## Selective and full traversals -/

/-- A selective traversal takes exactly the places of the full traversal whose paths lead only
through nodes that it goes below, in the same order and at the same depths. If it takes every node
behind its parts and not before them, it meets the same nodes at the same depths, each as often. -/
theorem visits_reached (n : Node) :
    ∃ order, n.TopDown order ∧
      (n.visits .pre everyKind).map some = order.map (n.visitAt? 0) ∧
      ∀ descend : Kind → Bool,
        (n.visits .pre descend).map some =
          (order.filter fun path => n.Reached descend path).map (n.visitAt? 0) ∧
        (n.visits .post descend).Perm (n.visits .pre descend) := by
  refine ⟨n.sortedPaths, n.topDown_sortedPaths, ?_, fun descend => ?_⟩
  · have all : (n.sortedPaths.filter fun path => n.Reached everyKind path) = n.sortedPaths := by
      simp [Node.Reached, everyKind]
    exact (n.map_some_visitsFrom everyKind 0).trans (by rw [all])
  · exact ⟨n.map_some_visitsFrom descend 0, n.visitsFrom_perm descend 0⟩

/-- The same name stands at three places, and two of them are below an index. A traversal that goes
below everything but an index meets the first of them and the index itself. -/
theorem visits_reached_index :
    let x : Expr := .ident "x"
    let sum : Node := .expr (.binary .add x (.index x x))
    let met : List (Nat × Node) := [(0, sum), (1, .expr x), (1, .expr (.index x x))]
    ∃ order, sum.TopDown order ∧
      (order.filter fun path => sum.Reached (· != .index) path).map (sum.visitAt? 0) =
        met.map some ∧
      (sum.visits .post (· != .index)).Perm met := by
  intro x sum met
  obtain ⟨order, htop, -, selective⟩ := visits_reached sum
  obtain ⟨hpre, hpost⟩ := selective (· != .index)
  have hmet : sum.visits .pre (· != .index) = met := rfl
  rw [hmet] at hpre hpost
  exact ⟨order, htop, hpre.symm, hpost⟩

end SyntaxForest
