import SyntaxForest.Source.Renderer

/-!
# The text of a node

`Expr.chars`, `Stmt.chars` and their companions are the source text of a node as a list of
characters, without a renderer: a statement's text depends on the number of blocks around it, and
on nothing else. Visiting a node appends exactly this text and leaves the level as it was.
-/

namespace SyntaxForest

namespace Renderer

/-! ## Lists of visits -/

/-- The further elements of a list, each behind a separator. -/
def restChars (separator before after : List Char) : List (List Char) → List Char
  | [] => []
  | t :: ts => separator ++ (before ++ (t ++ (after ++ restChars separator before after ts)))

/-- The elements of a list, each between `before` and `after`. -/
def listChars (separator before after : List Char) : List (List Char) → List Char
  | [] => []
  | t :: ts => before ++ (t ++ (after ++ restChars separator before after ts))

theorem restChars_cons (separator before after t : List Char) (ts : List (List Char)) :
    restChars separator before after (t :: ts) =
      separator ++ listChars separator before after (t :: ts) := rfl

/-- Appends characters. -/
def append (r : Renderer) (cs : List Char) : Renderer := r.push (String.ofList cs)

@[simp] theorem append_level (r : Renderer) (cs : List Char) : (r.append cs).level = r.level := rfl

theorem append_toList (r : Renderer) (cs : List Char) :
    (r.append cs).result.toList = r.result.toList ++ cs := by
  simp [append, push]

@[simp] theorem append_nil (r : Renderer) : r.append [] = r := by
  simp [append, push]

@[simp] theorem append_append (r : Renderer) (cs ds : List Char) :
    (r.append cs).append ds = r.append (cs ++ ds) := by
  simp [append, push, String.ofList_append, String.append_assoc]

theorem push_eq (r : Renderer) (text : String) : r.push text = r.append text.toList := by
  simp [append]

/-- Inside the given number of blocks, the visits append the texts. -/
inductive Appends (level : Nat) : List (Renderer → Renderer) → List (List Char) → Prop
  | nil : Appends level [] []
  | cons {visit : Renderer → Renderer} {t : List Char} {visits : List (Renderer → Renderer)}
      {ts : List (List Char)} (h : ∀ r : Renderer, r.level = level → visit r = r.append t)
      (hrest : Appends level visits ts) : Appends level (visit :: visits) (t :: ts)

variable {level : Nat} {visits : List (Renderer → Renderer)} {ts : List (List Char)}

theorem Appends.map (level : Nat) {α : Type} {visit : α → Renderer → Renderer}
    {chars : α → List Char} (h : ∀ a r, visit a r = r.append (chars a)) (as : List α) :
    Appends level (as.map visit) (as.map chars) := by
  induction as with
  | nil => exact .nil
  | cons a as ih => exact .cons (fun r _ => h a r) ih

theorem Appends.listRest_eq (h : Appends level visits ts) (separator before after : String)
    {r : Renderer} (hr : r.level = level) :
    listRest separator before after visits r =
      r.append (restChars separator.toList before.toList after.toList ts) := by
  induction h generalizing r with
  | nil => simp [listRest, restChars]
  | cons hvisit _ ih =>
    simp only [listRest, restChars, push_eq, append_append]
    rw [hvisit _ (by simpa using hr), append_append, append_append, ih (by simpa using hr)]
    simp

/-- A list of visits appends the list of their texts. -/
theorem Appends.list_eq (h : Appends level visits ts) (separator before after : String)
    {r : Renderer} (hr : r.level = level) :
    list separator before after visits r =
      r.append (listChars separator.toList before.toList after.toList ts) := by
  cases h with
  | nil => simp [list, listChars]
  | cons hvisit hrest =>
    simp only [list, listChars, push_eq]
    rw [hvisit _ (by simpa using hr), append_append, append_append,
      hrest.listRest_eq _ _ _ (by simpa using hr)]
    simp

/-- The indentation inside the given number of blocks, as characters. -/
def indent (level : Nat) : List Char := (indentation level).toList

theorem indent_succ (level : Nat) : indent (level + 1) = indent level ++ [' ', ' ', ' ', ' '] := by
  simp [indent, indentation, indentStep]

theorem indent_succ_cons (level : Nat) : ∃ t, indent (level + 1) = ' ' :: t := by
  induction level with
  | zero => exact ⟨[' ', ' ', ' '], by rw [indent_succ]; rfl⟩
  | succ level ih =>
    obtain ⟨t, ht⟩ := ih
    exact ⟨t ++ [' ', ' ', ' ', ' '], by rw [indent_succ, ht, List.cons_append]⟩

/-- The text of a block, from the texts of its statements one level further in. -/
def blockChars (level : Nat) (ts : List (List Char)) : List Char :=
  '\x7b' :: '\n' ::
    (listChars ['\n'] (indent (level + 1)) [] ts ++ '\n' :: (indent level ++ ['\x7d']))

theorem eq_of_toList {r r' : Renderer} (hresult : r.result.toList = r'.result.toList)
    (hlevel : r.level = r'.level) : r = r' := by
  obtain ⟨result, level⟩ := r
  obtain ⟨result', level'⟩ := r'
  rw [String.toList_inj] at hresult
  simp_all

/-- A block appends its text and leaves the level as it was. -/
theorem Appends.block_eq {r : Renderer} (h : Appends (r.level + 1) visits ts) :
    block visits r = r.append (blockChars r.level ts) := by
  have hlist := h.list_eq "\n" (indentation r.level ++ indentStep) ""
    (r := { r.push "\x7b\n" with level := r.level + 1 }) rfl
  rw [block, hlist]
  apply eq_of_toList
  · simp [blockChars, append, push, indent, indentation]
  · rfl

end Renderer

open Renderer

/-! ## Expressions and types -/

def TypeBase.chars : TypeBase → List Char
  | .primitive kind => kind.keyword.toList
  | .reference id => id.toList

mutual

/-- The text of an expression. -/
def Expr.chars : Expr → List Char
  | .ident id => id.toList
  | .const c => c.literal.toList
  | .call func args => func.chars ++ '(' :: (listChars [',', ' '] [] [] (Expr.texts args) ++ [')'])
  | .index var idx => var.chars ++ '[' :: (idx.chars ++ [']'])
  | .access var field => '(' :: (var.chars ++ '.' :: (field.chars ++ [')']))
  | .cast ty e => '(' :: (ty.chars ++ ' ' :: (e.chars ++ [')']))
  | .unary op e =>
    if op.followsOperand then '(' :: (e.chars ++ (op.symbol.toList ++ [')']))
    else '(' :: (op.symbol.toList ++ (e.chars ++ [')']))
  | .binary op left right =>
    '(' :: (left.chars ++ ' ' :: (op.symbol.toList ++ ' ' :: (right.chars ++ [')'])))
  | .assign op lval rval =>
    '(' :: (lval.chars ++ ' ' :: (op.symbol.toList ++ ' ' :: (rval.chars ++ [')'])))

/-- The text of a type. -/
def Ty.chars : Ty → List Char
  | ⟨base, dims⟩ => base.chars ++ listChars [] ['['] [']'] (Expr.dimsTexts dims)

def Expr.dimsTexts : Option (List Expr) → List (List Char)
  | none => []
  | some es => Expr.texts es

/-- The texts of several expressions. -/
def Expr.texts : List Expr → List (List Char)
  | [] => []
  | e :: es => e.chars :: Expr.texts es

end

theorem TypeBase.visit_eq (base : TypeBase) (r : Renderer) :
    base.visit r = r.append base.chars := by
  cases base <;> simp [TypeBase.visit, TypeBase.chars, push_eq]

mutual

theorem Expr.visit_eq (e : Expr) (r : Renderer) : e.visit r = r.append e.chars := by
  match e with
  | .ident id => simp [Expr.visit, Expr.chars, push_eq]
  | .const c => simp [Expr.visit, Expr.chars, push_eq]
  | .call func args =>
    have hargs (r : Renderer) := (Expr.visits_appends r.level args).list_eq ", " "" "" rfl
    simp [Expr.visit, Expr.chars, push_eq, func.visit_eq, hargs]
  | .index var idx => simp [Expr.visit, Expr.chars, push_eq, var.visit_eq, idx.visit_eq]
  | .access var field => simp [Expr.visit, Expr.chars, push_eq, var.visit_eq, field.visit_eq]
  | .cast ty e => simp [Expr.visit, Expr.chars, push_eq, ty.visit_eq, e.visit_eq]
  | .unary op e =>
    simp only [Expr.visit, Expr.chars]
    split <;> simp [push_eq, e.visit_eq]
  | .binary op left right => simp [Expr.visit, Expr.chars, push_eq, left.visit_eq, right.visit_eq]
  | .assign op lval rval => simp [Expr.visit, Expr.chars, push_eq, lval.visit_eq, rval.visit_eq]

theorem Ty.visit_eq (ty : Ty) (r : Renderer) : ty.visit r = r.append ty.chars := by
  match ty with
  | ⟨base, none⟩ =>
    simp [Ty.visit, Ty.chars, base.visit_eq, Expr.visitsDims, Expr.dimsTexts, Renderer.list,
      listChars]
  | ⟨base, some dims⟩ =>
    have hdims (r : Renderer) := (Expr.visits_appends r.level dims).list_eq "" "[" "]" rfl
    simp [Ty.visit, Ty.chars, base.visit_eq, Expr.visitsDims, Expr.dimsTexts, hdims]

theorem Expr.visits_appends (level : Nat) (es : List Expr) :
    Appends level (Expr.visits es) (Expr.texts es) := by
  match es with
  | [] =>
    rw [Expr.visits, Expr.texts]
    exact .nil
  | e :: es =>
    rw [Expr.visits, Expr.texts]
    exact .cons (fun r _ => e.visit_eq r) (Expr.visits_appends level es)

end

/-! ## Statements -/

def Declarator.chars (d : Declarator) : List Char :=
  match d.init with
  | none => d.id.toList
  | some e => d.id.toList ++ ' ' :: '=' :: ' ' :: e.chars

def Declaration.chars (d : Declaration) : List Char :=
  d.ty.chars ++ ' ' :: listChars [' '] [] [] (d.declarators.map Declarator.chars)

/-- The text of the value that is returned, behind a space. -/
def Expr.valueChars : Option Expr → List Char
  | none => []
  | some e => ' ' :: e.chars

mutual

/-- The text of a statement inside the given number of blocks. -/
def Stmt.chars (level : Nat) : Stmt → List Char
  | .brk => ['b', 'r', 'e', 'a', 'k']
  | .cont => ['c', 'o', 'n', 't', 'i', 'n', 'u', 'e']
  | .ret value => ['r', 'e', 't', 'u', 'r', 'n'] ++ Expr.valueChars value
  | .block stats => blockChars level (Stmt.texts (level + 1) stats)
  | .expr e => e.chars
  | .decl d => d.chars
  | .ite condition thenBranch elseBranch =>
    ['i', 'f'] ++ ' ' :: '(' :: (condition.chars ++ ')' :: ' ' ::
      (thenBranch.chars level ++ Stmt.elseChars level elseBranch))
  | .loop condition body =>
    ['w', 'h', 'i', 'l', 'e'] ++ ' ' :: '(' :: (condition.chars ++ ')' :: ' ' :: body.chars level)

/-- The text of the branch behind `else`, with the word itself. -/
def Stmt.elseChars (level : Nat) : Option Stmt → List Char
  | none => []
  | some s => ' ' :: (['e', 'l', 's', 'e'] ++ ' ' :: s.chars level)

/-- The texts of several statements. -/
def Stmt.texts (level : Nat) : List Stmt → List (List Char)
  | [] => []
  | s :: ss => s.chars level :: Stmt.texts level ss

end

theorem Declarator.visit_eq (d : Declarator) (r : Renderer) : d.visit r = r.append d.chars := by
  obtain ⟨id, init⟩ := d
  cases init <;> simp [Declarator.visit, Declarator.chars, push_eq, Expr.visit_eq]

theorem Declaration.visit_eq (d : Declaration) (r : Renderer) : d.visit r = r.append d.chars := by
  have hlist (r : Renderer) :=
    (Appends.map r.level Declarator.visit_eq d.declarators).list_eq " " "" "" rfl
  simp [Declaration.visit, Declaration.chars, push_eq, d.ty.visit_eq, hlist]

mutual

theorem Stmt.visit_eq (s : Stmt) (r : Renderer) : s.visit r = r.append (s.chars r.level) := by
  match s with
  | .brk => simp [Stmt.visit, Stmt.chars, push_eq]
  | .cont => simp [Stmt.visit, Stmt.chars, push_eq]
  | .ret none => simp [Stmt.visit, Stmt.chars, Expr.valueChars, push_eq]
  | .ret (some e) => simp [Stmt.visit, Stmt.chars, Expr.valueChars, push_eq, e.visit_eq]
  | .block stats =>
    rw [Stmt.visit, Stmt.chars, (Stmt.visits_appends (r.level + 1) stats).block_eq]
  | .expr e => simp [Stmt.visit, Stmt.chars, e.visit_eq]
  | .decl d => simp [Stmt.visit, Stmt.chars, d.visit_eq]
  | .ite condition thenBranch elseBranch =>
    simp [Stmt.visit, Stmt.chars, push_eq, condition.visit_eq, thenBranch.visit_eq,
      Stmt.visitElse_eq elseBranch]
  | .loop condition body =>
    simp [Stmt.visit, Stmt.chars, push_eq, condition.visit_eq, body.visit_eq]

theorem Stmt.visitElse_eq (branch : Option Stmt) (r : Renderer) :
    Stmt.visitElse branch r = r.append (Stmt.elseChars r.level branch) := by
  match branch with
  | none => simp [Stmt.visitElse, Stmt.elseChars]
  | some s => simp [Stmt.visitElse, Stmt.elseChars, push_eq, s.visit_eq]

theorem Stmt.visits_appends (level : Nat) (ss : List Stmt) :
    Appends level (Stmt.visits ss) (Stmt.texts level ss) := by
  match ss with
  | [] =>
    rw [Stmt.visits, Stmt.texts]
    exact .nil
  | s :: ss =>
    rw [Stmt.visits, Stmt.texts]
    exact .cons (fun r hr => hr ▸ s.visit_eq r) (Stmt.visits_appends level ss)

end

/-! ## Other nodes -/

def Parameter.chars (p : Parameter) : List Char := p.ty.chars ++ ' ' :: p.id.toList

def Header.chars (h : Header) : List Char :=
  h.ty.chars ++ ' ' :: (h.id.toList ++
    '(' :: (listChars [',', ' '] [] [] (h.params.map Parameter.chars) ++ [')']))

def FunctionDecl.chars (level : Nat) (f : FunctionDecl) : List Char :=
  f.header.chars ++ ' ' :: blockChars level (Stmt.texts (level + 1) f.body)

def StructDecl.chars (s : StructDecl) : List Char :=
  ['s', 't', 'r', 'u', 'c', 't'] ++ ' ' :: (s.id.toList ++ ' ' :: '\x7b' :: '\n' ::
    (listChars ['\n'] (indent 1) [] (s.fields.map Declaration.chars) ++ ['\n', '\x7d']))

/-- The text of a node inside the given number of blocks. -/
def Node.chars (level : Nat) : Node → List Char
  | .expr e => e.chars
  | .stmt s => s.chars level
  | .type ty => ty.chars
  | .declarator d => d.chars
  | .parameter p => p.chars
  | .header h => h.chars
  | .function f => f.chars level
  | .struct s => s.chars

theorem Parameter.visit_eq (p : Parameter) (r : Renderer) : p.visit r = r.append p.chars := by
  simp [Parameter.visit, Parameter.chars, push_eq, p.ty.visit_eq]

theorem Header.visit_eq (h : Header) (r : Renderer) : h.visit r = r.append h.chars := by
  have hlist (r : Renderer) :=
    (Appends.map r.level Parameter.visit_eq h.params).list_eq ", " "" "" rfl
  simp [Header.visit, Header.chars, push_eq, h.ty.visit_eq, hlist]

theorem FunctionDecl.visit_eq (f : FunctionDecl) (r : Renderer) :
    f.visit r = r.append (f.chars r.level) := by
  have hblock (r : Renderer) := (Stmt.visits_appends (r.level + 1) f.body).block_eq
  simp [FunctionDecl.visit, FunctionDecl.chars, push_eq, f.header.visit_eq, hblock]

theorem StructDecl.visit_eq (s : StructDecl) (r : Renderer) : s.visit r = r.append s.chars := by
  have hlist (r : Renderer) :=
    (Appends.map r.level Declaration.visit_eq s.fields).list_eq "\n" indentStep "" rfl
  simp [StructDecl.visit, StructDecl.chars, push_eq, hlist, indent, indentation]

/-- Visiting a node appends its text and leaves the level as it was. -/
theorem Node.visit_eq (n : Node) (r : Renderer) : n.visit r = r.append (n.chars r.level) := by
  cases n with
  | expr e => exact e.visit_eq r
  | stmt s => exact s.visit_eq r
  | type ty => exact ty.visit_eq r
  | declarator d => exact d.visit_eq r
  | parameter p => exact p.visit_eq r
  | header h => exact h.visit_eq r
  | function f => exact f.visit_eq r
  | struct s => exact s.visit_eq r

theorem Node.render_toList (n : Node) : n.render.toList = n.chars 0 := by
  rw [Node.render, Node.visit_eq, append_toList]
  rfl

theorem Node.render_eq_iff (n m : Node) : n.render = m.render ↔ n.chars 0 = m.chars 0 := by
  rw [← String.toList_inj, Node.render_toList, Node.render_toList]

end SyntaxForest
