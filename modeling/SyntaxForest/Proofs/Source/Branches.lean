import SyntaxForest.Proofs.Source.Programs

/-!
# Which `if` an `else` is read with

No mark in the text of a statement says where a branch ends, so an `else` behind a branch that ends
open reads as if it belonged to the last `if` inside that branch. `Stmt.settle` moves every `else`
to the `if` it reads with. It does not change the text, and two plain statements have the same text
exactly when they settle to the same statement (`Stmt.render_eq_iff_settle_eq`).
-/

namespace SyntaxForest

open Renderer

/-! ## Moving branches -/

/-- Gives a branch to the last `if` of a statement that ends open. -/
def Stmt.attach : Stmt → Stmt → Stmt
  | .ite condition thenBranch none, branch =>
    if thenBranch.endsOpen then .ite condition (thenBranch.attach branch) none
    else .ite condition thenBranch (some branch)
  | .ite condition thenBranch (some s), branch =>
    .ite condition thenBranch (some (s.attach branch))
  | .loop condition body, branch => .loop condition (body.attach branch)
  | s, _ => s

mutual

/-- Gives every `else` to the `if` that it reads with. -/
def Stmt.settle : Stmt → Stmt
  | .block stats => .block (Stmt.settleAll stats)
  | .ite condition thenBranch none => .ite condition thenBranch.settle none
  | .ite condition thenBranch (some s) =>
    (Stmt.ite condition thenBranch.settle none).attach s.settle
  | .loop condition body => .loop condition body.settle
  | s => s

def Stmt.settleAll : List Stmt → List Stmt
  | [] => []
  | s :: ss => s.settle :: Stmt.settleAll ss

end

/-! ## The text stays -/

theorem Stmt.chars_attach (level : Nat) {s : Stmt} (branch : Stmt) (h : s.endsOpen = true) :
    (s.attach branch).chars level = s.chars level ++ Stmt.elseChars level (some branch) := by
  match s with
  | .brk | .cont | .ret _ | .block _ | .expr _ | .decl _ => cases h
  | .ite condition thenBranch none =>
    rw [Stmt.attach]
    split
    · next hthen => simp [Stmt.chars, Stmt.elseChars, Stmt.chars_attach level branch hthen]
    · simp [Stmt.chars, Stmt.elseChars]
  | .ite condition thenBranch (some s) =>
    have ih := Stmt.chars_attach level (s := s) branch h
    simp [Stmt.attach, Stmt.chars, Stmt.elseChars, ih]
  | .loop condition body =>
    have ih := Stmt.chars_attach level (s := body) branch h
    simp [Stmt.attach, Stmt.chars, ih]

mutual

theorem Stmt.chars_settle (level : Nat) (s : Stmt) : s.settle.chars level = s.chars level := by
  match s with
  | .brk | .cont | .ret _ | .expr _ | .decl _ => rfl
  | .block stats => rw [Stmt.settle, Stmt.chars, Stmt.chars, Stmt.texts_settleAll]
  | .ite condition thenBranch none =>
    simp [Stmt.settle, Stmt.chars, Stmt.chars_settle level thenBranch]
  | .ite condition thenBranch (some s) =>
    -- Without its `else` the statement ends open, so the branch goes to its end.
    rw [Stmt.settle, Stmt.chars_attach level _ rfl]
    simp [Stmt.chars, Stmt.elseChars, Stmt.chars_settle level thenBranch, Stmt.chars_settle level s]
  | .loop condition body => simp [Stmt.settle, Stmt.chars, Stmt.chars_settle level body]

theorem Stmt.texts_settleAll (level : Nat) (ss : List Stmt) :
    Stmt.texts level (Stmt.settleAll ss) = Stmt.texts level ss := by
  match ss with
  | [] => rfl
  | s :: ss =>
    rw [Stmt.settleAll, Stmt.texts, Stmt.texts, Stmt.chars_settle level s,
      Stmt.texts_settleAll level ss]

end

/-- Settling a statement does not change its text. -/
theorem Stmt.render_settle (s : Stmt) : (Node.stmt s.settle).render = (Node.stmt s).render :=
  (Node.render_eq_iff _ _).mpr (s.chars_settle 0)

/-! ## What settling keeps and what it achieves -/

section

variable {Q : Node → Prop}

theorem Stmt.all_ite {condition : Expr} {thenBranch : Stmt} {elseBranch : Option Stmt} :
    (Stmt.ite condition thenBranch elseBranch).All Q ↔
      Q (.stmt (.ite condition thenBranch elseBranch)) ∧ condition.All Q ∧ thenBranch.All Q ∧
        ∀ s ∈ elseBranch, s.All Q := by
  rw [Stmt.All, Node.everywhere_iff]
  simp [Node.children, Stmt.children]

theorem Stmt.all_loop {condition : Expr} {body : Stmt} :
    (Stmt.loop condition body).All Q ↔
      Q (.stmt (.loop condition body)) ∧ condition.All Q ∧ body.All Q := by
  rw [Stmt.All, Node.everywhere_iff]
  simp [Node.children, Stmt.children]

theorem Stmt.all_block {stats : List Stmt} :
    (Stmt.block stats).All Q ↔ Q (.stmt (.block stats)) ∧ ∀ s ∈ stats, s.All Q := by
  rw [Stmt.All, Node.everywhere_iff]
  simp [Node.children, Stmt.children]

/-- Whether a statement is made of other statements. -/
def Stmt.isControl : Stmt → Bool
  | .block _ | .ite _ _ _ | .loop _ _ => true
  | _ => false

/-- What holds of all statements that are made of others is kept when a branch is moved. -/
theorem Stmt.all_attach (hQ : ∀ s : Stmt, s.isControl = true → Q (.stmt s)) {s branch : Stmt}
    (hs : s.All Q) (hbranch : branch.All Q) : (s.attach branch).All Q := by
  match s with
  | .brk | .cont | .ret _ | .block _ | .expr _ | .decl _ => exact hs
  | .ite condition thenBranch none =>
    obtain ⟨-, hcondition, hthen, -⟩ := Stmt.all_ite.mp hs
    rw [Stmt.attach]
    split
    · exact Stmt.all_ite.mpr ⟨hQ _ rfl, hcondition, Stmt.all_attach hQ hthen hbranch, by simp⟩
    · exact Stmt.all_ite.mpr ⟨hQ _ rfl, hcondition, hthen, by simpa using hbranch⟩
  | .ite condition thenBranch (some s) =>
    obtain ⟨-, hcondition, hthen, helse⟩ := Stmt.all_ite.mp hs
    have ih := Stmt.all_attach hQ (helse s rfl) hbranch
    exact Stmt.all_ite.mpr ⟨hQ _ rfl, hcondition, hthen, by simpa using ih⟩
  | .loop condition body =>
    obtain ⟨-, hcondition, hbody⟩ := Stmt.all_loop.mp hs
    exact Stmt.all_loop.mpr ⟨hQ _ rfl, hcondition, Stmt.all_attach hQ hbody hbranch⟩

mutual

theorem Stmt.all_settle (hQ : ∀ s : Stmt, s.isControl = true → Q (.stmt s)) {s : Stmt}
    (hs : s.All Q) : s.settle.All Q := by
  match s with
  | .brk | .cont | .ret _ | .expr _ | .decl _ => exact hs
  | .block stats =>
    exact Stmt.all_block.mpr ⟨hQ _ rfl, Stmt.all_settleAll hQ (Stmt.all_block.mp hs).2⟩
  | .ite condition thenBranch none =>
    obtain ⟨-, hcondition, hthen, -⟩ := Stmt.all_ite.mp hs
    exact Stmt.all_ite.mpr ⟨hQ _ rfl, hcondition, Stmt.all_settle hQ hthen, by simp⟩
  | .ite condition thenBranch (some s) =>
    obtain ⟨-, hcondition, hthen, helse⟩ := Stmt.all_ite.mp hs
    apply Stmt.all_attach hQ _ (Stmt.all_settle hQ (helse s rfl))
    exact Stmt.all_ite.mpr ⟨hQ _ rfl, hcondition, Stmt.all_settle hQ hthen, by simp⟩
  | .loop condition body =>
    obtain ⟨-, hcondition, hbody⟩ := Stmt.all_loop.mp hs
    exact Stmt.all_loop.mpr ⟨hQ _ rfl, hcondition, Stmt.all_settle hQ hbody⟩

theorem Stmt.all_settleAll (hQ : ∀ s : Stmt, s.isControl = true → Q (.stmt s)) {ss : List Stmt}
    (hss : ∀ s ∈ ss, s.All Q) : ∀ s ∈ Stmt.settleAll ss, s.All Q := by
  match ss with
  | [] => simp [Stmt.settleAll]
  | s :: ss =>
    rw [List.forall_mem_cons] at hss
    rw [Stmt.settleAll, List.forall_mem_cons]
    exact ⟨Stmt.all_settle hQ hss.1, Stmt.all_settleAll hQ hss.2⟩

end

end

theorem Node.Plain.settle {s : Stmt} (h : (Node.stmt s).Plain) : (Node.stmt s.settle).Plain := by
  constructor
  · rw [Node.check_eq_ok_iff_everywhere]
    apply Stmt.all_settle _ ((Node.check_eq_ok_iff_everywhere _).mp h.check)
    intro s hs
    cases s with
    | block | ite | loop => trivial
    | _ => cases hs
  · apply Stmt.all_settle _ h.everywhere
    intro s hs
    cases s <;> rfl

/-- Whether a node has no statements in it. -/
def Node.isInner : Node → Bool
  | .expr _ | .type _ | .declarator _ => true
  | _ => false

theorem Node.isInner_of_mem_children {n m : Node} (hn : n.isInner = true) (hm : m ∈ n.children) :
    m.isInner = true := by
  cases n with
  | expr e =>
    cases e <;> simp only [Node.children, Expr.children, List.mem_cons, List.mem_map,
      List.not_mem_nil, or_false] at hm <;> grind [Node.isInner]
  | type ty =>
    obtain ⟨base, dims⟩ := ty
    cases base <;> simp only [Node.children, Ty.children, List.mem_append, List.mem_cons,
      List.mem_map, List.not_mem_nil, or_false, false_or] at hm <;> grind [Node.isInner]
  | declarator d =>
    simp only [Node.children, List.mem_cons, List.mem_map] at hm
    grind [Node.isInner]
  | stmt | parameter | header | function | struct => cases hn

/-- Where there are no statements, there is nothing to settle. -/
theorem Node.settled_of_isInner {n : Node} (hn : n.isInner = true) : n.Settled := by
  revert hn
  apply Node.induction (Q := fun n => n.isInner = true → n.Settled) ?_ n
  intro n ih hn
  rw [Node.Settled, Node.everywhere_iff]
  refine ⟨?_, fun m hm => ih m hm (Node.isInner_of_mem_children hn hm)⟩
  cases n with
  | stmt s => cases hn
  | _ => rfl

theorem Stmt.settled_of_not_isControl {s : Stmt} (h : s.isControl = false) :
    (Node.stmt s).Settled := by
  rw [Node.Settled, Node.everywhere_iff]
  cases s with
  | block | ite | loop => cases h
  | brk | cont => exact ⟨rfl, by simp [Node.children, Stmt.children]⟩
  | ret value | expr e | decl d =>
    refine ⟨rfl, fun m hm => Node.settled_of_isInner ?_⟩
    simp only [Node.children, Stmt.children, List.mem_cons, List.mem_map, List.not_mem_nil,
      or_false] at hm
    grind [Node.isInner]

theorem Stmt.settled_attach {s branch : Stmt} (hs : (Node.stmt s).Settled)
    (hbranch : (Node.stmt branch).Settled) : (Node.stmt (s.attach branch)).Settled := by
  match s with
  | .brk | .cont | .ret _ | .block _ | .expr _ | .decl _ => exact hs
  | .ite condition thenBranch none =>
    obtain ⟨-, hcondition, hthen, -⟩ := Stmt.all_ite.mp hs
    rw [Stmt.attach]
    split
    · exact Stmt.all_ite.mpr ⟨rfl, hcondition, Stmt.settled_attach hthen hbranch, by simp⟩
    · -- This `if` takes the branch, since its first branch is closed.
      next hopen =>
      have hself : (Node.stmt (.ite condition thenBranch (some branch))).isSettled = true := by
        simpa [Node.isSettled] using hopen
      exact Stmt.all_ite.mpr ⟨hself, hcondition, hthen, by simpa using hbranch⟩
  | .ite condition thenBranch (some s) =>
    obtain ⟨hself, hcondition, hthen, helse⟩ := Stmt.all_ite.mp hs
    have ih := Stmt.settled_attach (helse s rfl) hbranch
    exact Stmt.all_ite.mpr ⟨hself, hcondition, hthen, by simpa using ih⟩
  | .loop condition body =>
    obtain ⟨-, hcondition, hbody⟩ := Stmt.all_loop.mp hs
    exact Stmt.all_loop.mpr ⟨rfl, hcondition, Stmt.settled_attach hbody hbranch⟩

mutual

/-- In a settled statement every `else` belongs to the nearest `if`. -/
theorem Stmt.settled_settle (s : Stmt) : (Node.stmt s.settle).Settled := by
  match s with
  | .brk | .cont | .ret _ | .expr _ | .decl _ => exact Stmt.settled_of_not_isControl rfl
  | .block stats => exact Stmt.all_block.mpr ⟨rfl, Stmt.settled_settleAll stats⟩
  | .ite condition thenBranch none =>
    exact Stmt.all_ite.mpr
      ⟨rfl, Node.settled_of_isInner rfl, thenBranch.settled_settle, by simp⟩
  | .ite condition thenBranch (some s) =>
    apply Stmt.settled_attach _ s.settled_settle
    exact Stmt.all_ite.mpr
      ⟨rfl, Node.settled_of_isInner rfl, thenBranch.settled_settle, by simp⟩
  | .loop condition body =>
    exact Stmt.all_loop.mpr ⟨rfl, Node.settled_of_isInner rfl, body.settled_settle⟩

theorem Stmt.settled_settleAll (ss : List Stmt) :
    ∀ s ∈ Stmt.settleAll ss, (Node.stmt s).Settled := by
  match ss with
  | [] => simp [Stmt.settleAll]
  | s :: ss =>
    rw [Stmt.settleAll, List.forall_mem_cons]
    exact ⟨s.settled_settle, Stmt.settled_settleAll ss⟩

end

/-- Two plain statements have the same source text exactly when they settle to the same
statement. -/
theorem Stmt.render_eq_iff_settle_eq {s t : Stmt} (hs : (Node.stmt s).Plain)
    (ht : (Node.stmt t).Plain) :
    (Node.stmt s).render = (Node.stmt t).render ↔ s.settle = t.settle := by
  constructor
  · intro h
    have hchars : s.settle.chars 0 ++ [] = t.settle.chars 0 ++ [] := by
      rw [s.chars_settle, t.chars_settle]
      exact congrArg (· ++ []) ((Node.render_eq_iff _ _).mp h)
    have hclear₁ := hs.settle.clear s.settled_settle
    have hclear₂ := ht.settle.clear t.settled_settle
    exact (Stmt.unique readableProgram_isClear hclear₁ 0 t.settle [] [] hclear₂ (.inl rfl)
      (.inl rfl) hchars).1
  · intro h
    rw [← s.render_settle, h, t.render_settle]

/-- An `else` that belongs to the outer `if` is moved into the loop of the branch in front of it, to
the `if` at the end of that loop. -/
theorem Stmt.render_eq_iff_settle_eq_loop :
    let s : Stmt :=
      .ite (.ident "a") (.loop (.ident "c") (.ite (.ident "b") .brk none)) (some .cont)
    let t : Stmt :=
      .ite (.ident "a") (.loop (.ident "c") (.ite (.ident "b") .brk (some .cont))) none
    (Node.stmt s).render = "if (a) while (c) if (b) break else continue" ∧ s.settle = t.settle :=
  ⟨by decide +kernel,
    (Stmt.render_eq_iff_settle_eq ⟨rfl, by decide +kernel⟩ ⟨rfl, by decide +kernel⟩).mp
      (by decide +kernel)⟩

/-- Two plain statements with the same source text need not be the same: nothing shows to which
`if` an `else` belongs. -/
theorem Stmt.render_dangling_else :
    let s : Stmt := .ite (.ident "a") (.ite (.ident "b") .brk none) (some .cont)
    let t : Stmt := .ite (.ident "a") (.ite (.ident "b") .brk (some .cont)) none
    (Node.stmt s).Plain ∧ (Node.stmt t).Plain ∧ s ≠ t ∧
      (Node.stmt s).render = (Node.stmt t).render :=
  ⟨⟨rfl, by decide +kernel⟩, ⟨rfl, by decide +kernel⟩, by simp, by decide +kernel⟩

end SyntaxForest
