import Mathlib.Data.List.DropRight
import SyntaxForest.Proofs.Source.Lines

/-!
# Nodes in context

A renderer may stand inside blocks and hold text when it visits a node. What it appends for a
statement is the text that a new renderer writes, with every line that is not empty moved in by the
blocks around it (`Stmt.visit_reindented`). A renderer that has visited a node is as good as a new
one but for the text it holds, so it can be used again for any run of nodes
(`Renderer.perform_from_new`).

`Reindents` says what moving the lines of a text makes of it, whatever text follows. It passes from
parts to their concatenation, and no part may end in a line break: how that line goes on is decided
by the next part.
-/

namespace SyntaxForest

open Renderer

/-! ## Names without line breaks -/

/-- Asks of every name that it has no line break. -/
def Node.hasOneLineName : Node → Bool
  | .expr (.ident id) => !id.toList.contains '\n'
  | _ => true

/-- No name in the tree has a line break. -/
abbrev Node.OneLine (n : Node) : Prop := n.Everywhere (·.hasOneLineName = true)

theorem Inline.not_mem_break {t : List Char} (h : Inline t) : '\n' ∉ t := fun hc => nomatch h _ hc

theorem not_mem_restChars {c : Char} {separator before after : List Char} {ts : List (List Char)}
    (hseparator : c ∉ separator) (hbefore : c ∉ before) (hafter : c ∉ after)
    (hts : ∀ t ∈ ts, c ∉ t) : c ∉ restChars separator before after ts := by
  induction ts with
  | nil => simp [restChars]
  | cons t ts ih =>
    rw [List.forall_mem_cons] at hts
    simp [restChars, ih hts.2, *]

theorem not_mem_listChars {c : Char} {separator before after : List Char} {ts : List (List Char)}
    (hseparator : c ∉ separator) (hbefore : c ∉ before) (hafter : c ∉ after)
    (hts : ∀ t ∈ ts, c ∉ t) : c ∉ listChars separator before after ts := by
  cases ts with
  | nil => simp [listChars]
  | cons t ts =>
    rw [List.forall_mem_cons] at hts
    simp [listChars, not_mem_restChars hseparator hbefore hafter hts.2, *]

theorem Node.OneLine.not_mem_name {n : Node} {id : String} (h : n.OneLine)
    (hid : .name id ∈ n.children) : '\n' ∉ id.toList := by
  simpa [Node.hasOneLineName] using (h.child hid).self

mutual

theorem Expr.not_mem_break (e : Expr) (h : (Node.expr e).OneLine) : '\n' ∉ e.chars := by
  match e with
  | .ident id => simpa [Expr.chars, Node.hasOneLineName] using h.self
  | .const c => exact c.solid_literal.inline.not_mem_break
  | .call func args =>
    have hfunc := func.not_mem_break (h.child (by simp [Node.children, Expr.children]))
    have hargs : '\n' ∉ listChars [',', ' '] [] [] (Expr.texts args) :=
      not_mem_listChars (by decide) List.not_mem_nil List.not_mem_nil
        (Expr.not_mem_break_texts args fun e he =>
          h.child (by simp [Node.children, Expr.children, he]))
    simp [Expr.chars, hfunc, hargs]
  | .index var idx =>
    have hvar := var.not_mem_break (h.child (by simp [Node.children, Expr.children]))
    have hidx := idx.not_mem_break (h.child (by simp [Node.children, Expr.children]))
    simp [Expr.chars, hvar, hidx]
  | .access var field =>
    have hvar := var.not_mem_break (h.child (by simp [Node.children, Expr.children]))
    have hfield := field.not_mem_break (h.child (by simp [Node.children, Expr.children]))
    simp [Expr.chars, hvar, hfield]
  | .cast ty e =>
    have hty := ty.not_mem_break (h.child (by simp [Node.children, Expr.children]))
    have he := e.not_mem_break (h.child (by simp [Node.children, Expr.children]))
    simp [Expr.chars, hty, he]
  | .unary op e =>
    have he := e.not_mem_break (h.child (by simp [Node.children, Expr.children]))
    have hop := op.solid_symbol.inline.not_mem_break
    rw [Expr.chars]
    split <;> simp [he, hop]
  | .binary op left right =>
    have hleft := left.not_mem_break (h.child (by simp [Node.children, Expr.children]))
    have hright := right.not_mem_break (h.child (by simp [Node.children, Expr.children]))
    simp [Expr.chars, hleft, hright, op.solid_symbol.inline.not_mem_break]
  | .assign op lval rval =>
    have hlval := lval.not_mem_break (h.child (by simp [Node.children, Expr.children]))
    have hrval := rval.not_mem_break (h.child (by simp [Node.children, Expr.children]))
    simp [Expr.chars, hlval, hrval, op.solid_symbol.inline.not_mem_break]

theorem Ty.not_mem_break (ty : Ty) (h : (Node.type ty).OneLine) : '\n' ∉ ty.chars := by
  match ty with
  | ⟨base, dims⟩ =>
    have hbase : '\n' ∉ base.chars := by
      cases base with
      | primitive kind => exact kind.solid_keyword.inline.not_mem_break
      | reference id => exact h.not_mem_name (by simp [Node.children, Ty.children])
    have hdims : ∀ t ∈ Expr.dimsTexts dims, '\n' ∉ t := by
      match dims with
      | none => simp [Expr.dimsTexts]
      | some es =>
        exact Expr.not_mem_break_texts es fun e he =>
          h.child (by simp [Node.children, Ty.children, he])
    have hlist : '\n' ∉ listChars [] ['['] [']'] (Expr.dimsTexts dims) :=
      not_mem_listChars List.not_mem_nil (by decide) (by decide) hdims
    simp [Ty.chars, hbase, hlist]

theorem Expr.not_mem_break_texts (es : List Expr) (h : ∀ e ∈ es, (Node.expr e).OneLine) :
    ∀ t ∈ Expr.texts es, '\n' ∉ t := by
  match es with
  | [] => simp [Expr.texts]
  | e :: es =>
    rw [List.forall_mem_cons] at h
    rw [Expr.texts, List.forall_mem_cons]
    exact ⟨e.not_mem_break h.1, Expr.not_mem_break_texts es h.2⟩

end

theorem Declarator.not_mem_break (d : Declarator) (h : (Node.declarator d).OneLine) :
    '\n' ∉ d.chars := by
  obtain ⟨id, init⟩ := d
  have hid : '\n' ∉ id.toList := h.not_mem_name (by simp [Node.children])
  cases init with
  | none => exact hid
  | some e =>
    have he := e.not_mem_break (h.child (by simp [Node.children]))
    simp [Declarator.chars, hid, he]

theorem Declaration.not_mem_break (d : Declaration) (h : (Node.declaration d).OneLine) :
    '\n' ∉ d.chars := by
  have hty := d.ty.not_mem_break (h.child (by simp [Node.children, Stmt.children]))
  have hdeclarators : ∀ t ∈ d.declarators.map Declarator.chars, '\n' ∉ t := by
    rw [List.forall_mem_map]
    exact fun x hx => x.not_mem_break (h.child (by simp [Node.children, Stmt.children, hx]))
  simp only [Declaration.chars, List.mem_append, List.mem_cons, not_or]
  exact ⟨hty, by decide, not_mem_listChars (by decide) List.not_mem_nil List.not_mem_nil
    hdeclarators⟩

/-! ## Moving lines -/

/-- Puts four spaces for every level behind each line break that is not directly followed by
another. -/
def reindentChars (level : Nat) : List Char → List Char
  | [] => []
  | c :: t =>
    if c = '\n' ∧ t.head? ≠ some '\n' then
      '\n' :: (List.replicate (4 * level) ' ' ++ reindentChars level t)
    else c :: reindentChars level t

/-- Moves all lines of a text but the first, and but those that are empty. -/
def reindent (level : Nat) (text : String) : String :=
  String.ofList (reindentChars level text.toList)

/-- Moving the lines of `t` gives `t'`, whatever follows. -/
def Reindents (level : Nat) (t t' : List Char) : Prop :=
  ∀ rest, reindentChars level (t ++ rest) = t' ++ reindentChars level rest

namespace Reindents

variable {level : Nat} {a a' b b' : List Char}

theorem nil : Reindents level [] [] := fun _ => rfl

theorem append (ha : Reindents level a a') (hb : Reindents level b b') :
    Reindents level (a ++ b) (a' ++ b') := by
  intro rest
  rw [List.append_assoc, ha, hb, List.append_assoc]

/-- A text on one line stays where it is. -/
theorem of_not_mem (h : '\n' ∉ a) : Reindents level a a := by
  intro rest
  induction a with
  | nil => rfl
  | cons c a ih =>
    rw [List.mem_cons, not_or] at h
    simp [reindentChars, Ne.symm h.1, ih h.2]

/-- A line that is not empty is moved. -/
theorem line (h : Reindents level a a') (hhead : ∃ c s, a = c :: s ∧ c ≠ '\n') :
    Reindents level ('\n' :: a) ('\n' :: (List.replicate (4 * level) ' ' ++ a')) := by
  obtain ⟨c, s, rfl, hc⟩ := hhead
  intro rest
  have hrest := h rest
  rw [List.cons_append] at hrest
  rw [List.cons_append, List.cons_append, reindentChars, if_pos (by simp [hc]), hrest]
  simp

/-- A line break in front of another one is left alone. -/
theorem emptyLine (h : Reindents level ('\n' :: a) a') :
    Reindents level ('\n' :: '\n' :: a) ('\n' :: a') := by
  intro rest
  have hrest := h rest
  rw [List.cons_append] at hrest
  rw [List.cons_append, List.cons_append, reindentChars, if_neg (by simp), hrest]
  rfl

end Reindents

theorem indent_add (inner level : Nat) :
    indent (inner + level) = List.replicate (4 * level) ' ' ++ indent inner := by
  rw [indent_eq_replicate, indent_eq_replicate, List.replicate_append_replicate]
  congr 1
  omega

theorem not_mem_indent (level : Nat) : '\n' ∉ indent level := (inline_indent level).not_mem_break

/-- An indented text on a line of its own, if it is not empty or inside a block. -/
theorem reindents_line {level inner : Nat} {t t' : List Char} (h : Reindents level t t')
    (hhead : ∃ c s, indent inner ++ t = c :: s ∧ c ≠ '\n') :
    Reindents level ('\n' :: (indent inner ++ t)) ('\n' :: (indent (inner + level) ++ t')) := by
  rw [indent_add, List.append_assoc]
  exact ((Reindents.of_not_mem (not_mem_indent inner)).append h).line hhead

theorem reindents_closing (level inner : Nat) :
    Reindents level ('\n' :: (indent inner ++ ['\x7d']))
      ('\n' :: (indent (inner + level) ++ ['\x7d'])) := by
  apply reindents_line (.of_not_mem (by decide))
  cases inner with
  | zero => exact ⟨'\x7d', [], rfl, by decide⟩
  | succ inner =>
    obtain ⟨t, ht⟩ := indent_succ_cons inner
    exact ⟨' ', t ++ ['\x7d'], by rw [ht]; rfl, by decide⟩

mutual

/-- Moving the lines of a statement is writing it inside more blocks. -/
theorem Stmt.reindents (level inner : Nat) (s : Stmt) (h : (Node.stmt s).OneLine) :
    Reindents level (s.chars inner) (s.chars (inner + level)) := by
  match s with
  | .brk => exact .of_not_mem (by simp [Stmt.chars])
  | .cont => exact .of_not_mem (by simp [Stmt.chars])
  | .ret none => exact .of_not_mem (by simp [Stmt.chars, Expr.valueChars])
  | .ret (some e) =>
    have he := e.not_mem_break (h.child (by simp [Node.children, Stmt.children]))
    exact .of_not_mem (by simp [Stmt.chars, Expr.valueChars, he])
  | .block stats =>
    have hstats := Stmt.reindents_texts level inner stats fun s hs =>
      h.child (by simp [Node.children, Stmt.children, hs])
    have hclosing := reindents_closing level inner
    have hbrace : Reindents level ['\x7b'] ['\x7b'] := .of_not_mem (by decide)
    match stats with
    | [] => exact hbrace.append hclosing.emptyLine
    | s :: ss =>
      have hblock := hbrace.append (hstats.append hclosing)
      rw [Nat.add_right_comm] at hblock
      simpa [Stmt.chars, Stmt.texts, blockChars, restChars, listChars] using hblock
  | .expr e =>
    exact .of_not_mem (e.not_mem_break (h.child (by simp [Node.children, Stmt.children])))
  | .decl d => exact .of_not_mem (d.not_mem_break h)
  | .ite condition thenBranch elseBranch =>
    have hcondition := condition.not_mem_break (h.child (by simp [Node.children, Stmt.children]))
    have hthen := thenBranch.reindents level inner (h.child (by simp [Node.children, Stmt.children]))
    have helse := Stmt.reindents_elseChars level inner elseBranch fun s hs =>
      h.child (by simp_all [Node.children, Stmt.children])
    have hhead : Reindents level ("if (".toList ++ (condition.chars ++ [')', ' '])) _ :=
      .of_not_mem (by simp [hcondition])
    simpa [Stmt.chars] using hhead.append (hthen.append helse)
  | .loop condition body =>
    have hcondition := condition.not_mem_break (h.child (by simp [Node.children, Stmt.children]))
    have hbody := body.reindents level inner (h.child (by simp [Node.children, Stmt.children]))
    have hhead : Reindents level ("while (".toList ++ (condition.chars ++ [')', ' '])) _ :=
      .of_not_mem (by simp [hcondition])
    simpa [Stmt.chars] using hhead.append hbody

theorem Stmt.reindents_elseChars (level inner : Nat) (branch : Option Stmt)
    (h : ∀ s ∈ branch.toList, (Node.stmt s).OneLine) :
    Reindents level (Stmt.elseChars inner branch) (Stmt.elseChars (inner + level) branch) := by
  match branch with
  | none => exact .nil
  | some s =>
    have hs := s.reindents level inner (h s (by simp))
    have hword : Reindents level " else ".toList _ := .of_not_mem (by simp)
    simpa [Stmt.elseChars] using hword.append hs

/-- Statements inside a block, each on a line of its own. -/
theorem Stmt.reindents_texts (level inner : Nat) (ss : List Stmt)
    (h : ∀ s ∈ ss, (Node.stmt s).OneLine) :
    Reindents level (restChars ['\n'] (indent (inner + 1)) [] (Stmt.texts (inner + 1) ss))
      (restChars ['\n'] (indent (inner + 1 + level)) [] (Stmt.texts (inner + 1 + level) ss)) := by
  match ss with
  | [] => exact .nil
  | s :: ss =>
    rw [List.forall_mem_cons] at h
    have hline := (s.reindents level (inner + 1) h.1).append
      (Stmt.reindents_texts level inner ss h.2)
    obtain ⟨t, ht⟩ := indent_succ_cons inner
    exact reindents_line hline ⟨' ', _, by rw [ht]; rfl, by decide⟩

end

/-- Inside the given number of blocks, and behind whatever is written already, a statement is
written as by itself with its lines moved. The number of blocks stays what it was. -/
theorem Stmt.visit_reindented (s : Stmt) (h : (Node.stmt s).OneLine) (result : String)
    (level : Nat) :
    (s.visit ⟨result, level⟩).level = level ∧
      (s.visit ⟨result, level⟩).result = result ++ reindent level (Node.stmt s).render := by
  have hmoved : reindentChars level (s.chars 0) = s.chars level := by
    simpa [reindentChars] using s.reindents level 0 h []
  rw [s.visit_eq]
  refine ⟨rfl, ?_⟩
  rw [← String.toList_inj, append_toList, String.toList_append, reindent, String.toList_ofList,
    Node.render_toList]
  exact congrArg _ hmoved.symm

/-- A branch with two blocks, one of them empty, inside two more blocks. -/
theorem Stmt.visit_reindented_branches :
    let branch : Stmt :=
      .ite (.ident "a b") (.block [.brk, .block [.ret none]]) (some (.block []))
    (Node.stmt branch).OneLine ∧
    (branch.visit ⟨"do ", 2⟩).result =
      "do if (a b) \x7b\n            break\n            \x7b\n                return\n" ++
        "            \x7d\n        \x7d else \x7b\n\n        \x7d" := by
  intro branch
  have hbranch : (Node.stmt branch).OneLine := by decide +kernel
  refine ⟨hbranch, (branch.visit_reindented hbranch "do " 2).2.trans ?_⟩
  decide +kernel

/-! ## A renderer that is used again -/

namespace Renderer

/-- What may be asked of a renderer: to write a root behind what it holds, or to forget it. -/
inductive Operation
  | accept (root : Node)
  | clear

namespace Operation

/-- Carries out an operation. -/
def apply (r : Renderer) : Operation → Renderer
  | accept root => root.visit r
  | clear => r.clear

/-- The root that is written, if there is one. -/
def root? : Operation → Option Node
  | accept root => some root
  | clear => none

/-- The roots that were accepted since the last time all was forgotten, in order. -/
def sinceClear (operations : List Operation) : List Node :=
  (operations.rtakeWhile (·.root?.isSome)).filterMap root?

theorem sinceClear_accept (operations : List Operation) (root : Node) :
    sinceClear (operations ++ [accept root]) = sinceClear operations ++ [root] := by
  rw [sinceClear, List.rtakeWhile_concat_pos _ _ _ (by rfl), List.filterMap_append]
  rfl

theorem sinceClear_clear (operations : List Operation) :
    sinceClear (operations ++ [clear]) = [] := by
  rw [sinceClear, List.rtakeWhile_concat_neg _ _ _ (by simp [root?])]
  rfl

end Operation

/-- Carries out operations one after the other. -/
def perform (r : Renderer) (operations : List Operation) : Renderer :=
  operations.foldl Operation.apply r

/-- A renderer outside of all blocks writes a root as a new one does. -/
theorem visit_outside (root : Node) {r : Renderer} (hr : r.level = 0) :
    root.visit r = ⟨r.result ++ root.render, 0⟩ := by
  rw [root.visit_eq]
  apply eq_of_toList
  · rw [append_toList, hr, String.toList_append, Node.render_toList]
  · exact hr

/-- After any operations a new renderer holds the roots since the last clearing and stands outside
of all blocks. -/
theorem perform_new (operations : List Operation) :
    perform {} operations =
      ⟨String.join ((Operation.sinceClear operations).map Node.render), 0⟩ := by
  induction operations using List.reverseRecOn with
  | nil => rfl
  | append_singleton operations operation ih =>
    rw [perform, List.foldl_append, List.foldl_cons, List.foldl_nil, ← perform, ih]
    cases operation with
    | accept root =>
      rw [Operation.apply, visit_outside root rfl, Operation.sinceClear_accept]
      simp [String.join]
    | clear =>
      rw [Operation.sinceClear_clear]
      rfl

/-- The renderer behind the last statement of a block, before the block is closed. -/
def inside (visits : List (Renderer → Renderer)) (r : Renderer) : Renderer :=
  list "\n" (indentation r.level ++ indentStep) "" visits
    { r.push "\x7b\n" with level := r.level + 1 }

/-- Closes a block: the level goes down by one, and the brace stands behind the outer
indentation. -/
def close (outer : String) (r : Renderer) : Renderer :=
  (({ r with level := r.level - 1 }.push "\n").push outer).push "\x7d"

/-- Behind the statements of a block the level is one above the level around the block. -/
theorem inside_level (stats : List Stmt) (r : Renderer) :
    (inside (Stmt.visits stats) r).level = r.level + 1 := by
  rw [inside, (Stmt.visits_appends (r.level + 1) stats).list_eq _ _ _ rfl]
  rfl

/-- A renderer can be used for any run of operations: it holds what new renderers write for the
roots since the last clearing, at no place between two operations is a block open, and whenever a
block is closed there is a level to go down from. -/
theorem perform_from_new (before after : List Operation) :
    (perform {} before).level = 0 ∧
    (perform {} (before ++ after)).result =
      String.join ((Operation.sinceClear (before ++ after)).map Node.render) ∧
    ∀ (stats : List Stmt) (r : Renderer),
      block (Stmt.visits stats) r =
        (inside (Stmt.visits stats) r).close (indentation r.level) ∧
      (inside (Stmt.visits stats) r).level = r.level + 1 := by
  refine ⟨?_, ?_, fun stats r => ⟨rfl, inside_level stats r⟩⟩
  · rw [perform_new]
  · rw [perform_new]

/-- A block inside a block is written and forgotten. What is written afterwards begins outside of
all blocks: a loop, and behind it the same blocks once more. -/
theorem perform_from_new_blocks :
    let blocks : Node := .block [.block [.brk]]
    let loop : Node := .stmt (.loop (.ident "x") (.block [.cont]))
    (perform {} [.accept blocks]).level = 0 ∧
    (perform {} [.accept blocks, .clear, .accept loop, .accept blocks]).result =
      "while (x) \x7b\n    continue\n\x7d" ++
        "\x7b\n    \x7b\n        break\n    \x7d\n\x7d" := by
  intro blocks loop
  obtain ⟨hlevel, hresult, -⟩ :=
    perform_from_new [.accept blocks] [.clear, .accept loop, .accept blocks]
  refine ⟨hlevel, hresult.trans ?_⟩
  decide +kernel

end Renderer

end SyntaxForest
