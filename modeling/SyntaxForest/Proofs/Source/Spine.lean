import SyntaxForest.Proofs.Source.Text
import SyntaxForest.Proofs.Source.Words
import SyntaxForest.Proofs.Tree.Parts

/-!
# The shape of an expression's text

Calls and indexing are written behind what they apply to, without parentheses, and everything else
that is compound stands in parentheses. So the text of an expression is a sign that may be missing,
a head, which is a word or a parenthesised group, and any number of suffixes: its spine. A type has
a spine too, with a word as its head.

A group is an opening symbol that may be missing, the spine of its first operand, and the rest up to
the closing parenthesis. The minus of a negation is taken as the sign of its operand's spine and not
as an opening symbol: a negated literal begins like a negative one.
-/

namespace SyntaxForest

open Renderer

/-! ## Spines -/

/-- What a spine begins with. -/
inductive Head
  | word (w : List Char)
  | group (expr : Expr)

/-- What may stand behind an expression without parentheses. -/
inductive Suffix
  | args (es : List Expr)
  | item (idx : Expr)

/-- A sign, a head and suffixes. -/
structure Spine where
  minus : Bool
  head : Head
  suffixes : List Suffix

def Head.chars : Head → List Char
  | .word w => w
  | .group e => e.chars

def Suffix.chars : Suffix → List Char
  | .args es => '(' :: (listChars [',', ' '] [] [] (Expr.texts es) ++ [')'])
  | .item idx => '[' :: (idx.chars ++ [']'])

def Spine.chars (s : Spine) : List Char :=
  signChars s.minus ++ (s.head.chars ++ s.suffixes.flatMap Suffix.chars)

/-- The expressions in a suffix. -/
def Suffix.parts : Suffix → List Expr
  | .args es => es
  | .item idx => [idx]

/-- Adds a suffix at the end. -/
def Spine.push (s : Spine) (x : Suffix) : Spine := { s with suffixes := s.suffixes ++ [x] }

theorem Spine.chars_push (s : Spine) (x : Suffix) : (s.push x).chars = s.chars ++ x.chars := by
  simp [Spine.chars, Spine.push]

theorem Spine.push_inj {s₁ s₂ : Spine} {x₁ x₂ : Suffix} (h : s₁.push x₁ = s₂.push x₂) :
    s₁ = s₂ ∧ x₁ = x₂ := by
  obtain ⟨minus₁, head₁, suffixes₁⟩ := s₁
  obtain ⟨minus₂, head₂, suffixes₂⟩ := s₂
  simp only [Spine.push, Spine.mk.injEq] at h
  obtain ⟨rfl, rfl, h⟩ := h
  obtain ⟨rfl, hx⟩ := List.append_inj' h rfl
  exact ⟨rfl, by simpa using hx⟩

/-- The spine of an expression. -/
def Expr.spine : Expr → Spine
  | .ident id => ⟨false, .word id.toList, []⟩
  | .const c => ⟨(unsigned c.literal.toList).1, .word (unsigned c.literal.toList).2, []⟩
  | .call func args => func.spine.push (.args args)
  | .index var idx => var.spine.push (.item idx)
  | .access var field => ⟨false, .group (.access var field), []⟩
  | .cast ty e => ⟨false, .group (.cast ty e), []⟩
  | .unary op e => ⟨false, .group (.unary op e), []⟩
  | .binary op left right => ⟨false, .group (.binary op left right), []⟩
  | .assign op lval rval => ⟨false, .group (.assign op lval rval), []⟩

/-- The spine of a type: its base and, as suffixes, its dimensions. -/
def Ty.spine (ty : Ty) : Spine :=
  ⟨false, .word ty.base.chars, (ty.dims.getD []).map .item⟩

theorem Expr.chars_spine (e : Expr) : e.spine.chars = e.chars := by
  match e with
  | .const c => simp [Expr.spine, Spine.chars, Head.chars, Expr.chars, signChars_unsigned]
  | .call func args =>
    rw [Expr.spine, Spine.chars_push, func.chars_spine]
    simp [Suffix.chars, Expr.chars]
  | .index var idx =>
    rw [Expr.spine, Spine.chars_push, var.chars_spine]
    simp [Suffix.chars, Expr.chars]
  | .ident _ | .access _ _ | .cast _ _ | .unary _ _ | .binary _ _ _ | .assign _ _ _ =>
    simp [Expr.spine, Spine.chars, Head.chars, Expr.chars, signChars]

theorem Expr.texts_eq_map (es : List Expr) : Expr.texts es = es.map Expr.chars := by
  induction es with
  | nil => rfl
  | cons e es ih => rw [Expr.texts, ih, List.map_cons]

theorem Ty.chars_spine (ty : Ty) : ty.spine.chars = ty.chars := by
  have rest (es : List Expr) : restChars [] ['['] [']'] (Expr.texts es) =
      (es.map Suffix.item).flatMap Suffix.chars := by
    induction es with
    | nil => rfl
    | cons e es ih => simp [Expr.texts, restChars, ih, Suffix.chars]
  have list (es : List Expr) : listChars [] ['['] [']'] (Expr.texts es) =
      (es.map Suffix.item).flatMap Suffix.chars := by
    cases es with
    | nil => rfl
    | cons e es => simp [Expr.texts, listChars, rest, Suffix.chars]
  obtain ⟨base, dims⟩ := ty
  cases dims with
  | none =>
    simp [Ty.spine, Spine.chars, Head.chars, Ty.chars, signChars, Expr.dimsTexts, listChars]
  | some es => simp [Ty.spine, Spine.chars, Head.chars, Ty.chars, signChars, Expr.dimsTexts, list]

/-! ## Readable nodes -/

/-- A condition on the nodes of a tree that keeps apart what its words stand for. -/
structure Readable (P : Node → Prop) : Prop where
  name {id : String} (h : P (.name id)) : isName id = true ∧ id ∉ expressionWords
  const {c : Constant} (h : P (.expr (.const c))) : c.isWhole = true
  dims {ty : Ty} (h : P (.type ty)) : ty.dims ≠ some []
  /-- A negated operand does not begin with a minus of its own. -/
  neg {e : Expr} (h : (Node.expr (.unary .neg e)).Everywhere P) : e.spine.minus = false

/-- The condition holds everywhere in the expression. -/
abbrev Expr.All (P : Node → Prop) (e : Expr) : Prop := (Node.expr e).Everywhere P

/-- The condition holds everywhere in the type. -/
abbrev Ty.All (P : Node → Prop) (ty : Ty) : Prop := (Node.type ty).Everywhere P

/-- Whether an expression is written in parentheses. -/
def Expr.isGroup : Expr → Bool
  | .access _ _ | .cast _ _ | .unary _ _ | .binary _ _ _ | .assign _ _ _ => true
  | _ => false

/-- A word or a group. -/
def Head.Legible (P : Node → Prop) : Head → Prop
  | .word w => IsWord w
  | .group e => e.isGroup = true ∧ e.All P

structure Spine.Legible (P : Node → Prop) (s : Spine) : Prop where
  head : s.head.Legible P
  suffixes : ∀ x ∈ s.suffixes, ∀ e ∈ x.parts, e.All P

section

variable {P : Node → Prop}

theorem Spine.Legible.push {s : Spine} (hs : s.Legible P) {x : Suffix}
    (hx : ∀ e ∈ x.parts, e.All P) : (s.push x).Legible P := by
  refine ⟨hs.head, ?_⟩
  intro y hy
  rcases List.mem_append.mp hy with hy | hy
  · exact hs.suffixes y hy
  · rw [List.mem_singleton] at hy
    rwa [hy]

theorem Expr.spine_legible (hP : Readable P) {e : Expr} (h : e.All P) : e.spine.Legible P := by
  match e with
  | .ident id => exact ⟨isWord_of_isName (hP.name h.self).1, by simp [Expr.spine]⟩
  | .const c => exact ⟨Constant.isWord_unsigned (hP.const h.self), by simp [Expr.spine]⟩
  | .call func args =>
    have hfunc : func.All P := h.child (by simp [Node.children, Expr.children])
    apply (Expr.spine_legible hP hfunc).push
    intro e he
    exact h.child (by simp_all [Node.children, Expr.children, Suffix.parts])
  | .index var idx =>
    have hvar : var.All P := h.child (by simp [Node.children, Expr.children])
    apply (Expr.spine_legible hP hvar).push
    intro e he
    exact h.child (by simp_all [Node.children, Expr.children, Suffix.parts])
  | .access _ _ | .cast _ _ | .unary _ _ | .binary _ _ _ | .assign _ _ _ =>
    exact ⟨⟨rfl, h⟩, by simp [Expr.spine]⟩

theorem Ty.isWord_base (hP : Readable P) {ty : Ty} (h : ty.All P) : IsWord ty.base.chars := by
  match ty, h with
  | ⟨.primitive kind, dims⟩, _ => exact isWord_of_isName kind.isName_keyword
  | ⟨.reference id, dims⟩, h =>
    have hid : (Node.name id).Everywhere P := h.child (by simp [Node.children, Ty.children])
    exact isWord_of_isName (hP.name hid.self).1

theorem Ty.spine_legible (hP : Readable P) {ty : Ty} (h : ty.All P) : ty.spine.Legible P := by
  refine ⟨Ty.isWord_base hP h, ?_⟩
  intro x hx e he
  simp only [Ty.spine, List.mem_map] at hx
  obtain ⟨d, hd, rfl⟩ := hx
  rw [Suffix.parts, List.mem_singleton] at he
  subst he
  exact h.child (by simp [Node.children, Ty.children, hd])

/-! ## A spine determines its node -/

theorem Expr.eq_call_of_spine {e : Expr} {s : Spine} {args : List Expr}
    (h : e.spine = s.push (.args args)) : ∃ func, e = .call func args ∧ func.spine = s := by
  cases e with
  | call func args' =>
    obtain ⟨hs, hargs⟩ := Spine.push_inj h
    cases hargs
    exact ⟨func, rfl, hs⟩
  | index var idx =>
    obtain ⟨-, hx⟩ := Spine.push_inj h
    cases hx
  | ident | const | access | cast | unary | binary | assign =>
    simp [Expr.spine, Spine.push] at h

theorem Expr.eq_index_of_spine {e : Expr} {s : Spine} {idx : Expr}
    (h : e.spine = s.push (.item idx)) : ∃ var, e = .index var idx ∧ var.spine = s := by
  cases e with
  | index var idx' =>
    obtain ⟨hs, hidx⟩ := Spine.push_inj h
    cases hidx
    exact ⟨var, rfl, hs⟩
  | call func args =>
    obtain ⟨-, hx⟩ := Spine.push_inj h
    cases hx
  | ident | const | access | cast | unary | binary | assign =>
    simp [Expr.spine, Spine.push] at h

theorem Expr.eq_group_of_spine {e g : Expr} {minus : Bool}
    (h : e.spine = ⟨minus, .group g, []⟩) : e = g := by
  cases e <;> simp_all [Expr.spine, Spine.push]

/-- A spine that is a word alone is that of a name or a constant. -/
theorem Expr.word_of_spine {e : Expr} {minus : Bool} {w : List Char}
    (h : e.spine = ⟨minus, .word w, []⟩) : (∃ id, e = .ident id) ∨ ∃ c, e = .const c := by
  cases e <;> simp_all [Expr.spine, Spine.push]

/-- Two words, each a name or a constant, are told apart by their texts. -/
theorem Expr.eq_of_word (hP : Readable P) {e₁ e₂ : Expr} (h₁ : e₁.All P) (h₂ : e₂.All P)
    (hw₁ : (∃ id, e₁ = .ident id) ∨ ∃ c, e₁ = .const c)
    (hw₂ : (∃ id, e₂ = .ident id) ∨ ∃ c, e₂ = .const c) (h : e₁.chars = e₂.chars) : e₁ = e₂ := by
  rcases hw₁ with ⟨id₁, rfl⟩ | ⟨c₁, rfl⟩ <;> rcases hw₂ with ⟨id₂, rfl⟩ | ⟨c₂, rfl⟩ <;>
    simp only [Expr.chars] at h
  · rw [String.toList_inj.mp h]
  · obtain ⟨hname, hwords⟩ := hP.name h₁.self
    exact absurd h.symm (Constant.literal_ne_name (hP.const h₂.self) hname hwords)
  · obtain ⟨hname, hwords⟩ := hP.name h₂.self
    exact absurd h (Constant.literal_ne_name (hP.const h₁.self) hname hwords)
  · rw [Constant.literal_inj (hP.const h₁.self) (hP.const h₂.self) h]

theorem Expr.spine_inj (hP : Readable P) {e₁ e₂ : Expr} (h₁ : e₁.All P) (h₂ : e₂.All P)
    (h : e₁.spine = e₂.spine) : e₁ = e₂ := by
  have hchars : e₁.chars = e₂.chars := by rw [← e₁.chars_spine, h, e₂.chars_spine]
  match e₁ with
  | .ident id => exact Expr.eq_of_word hP h₁ h₂ (.inl ⟨id, rfl⟩) (Expr.word_of_spine h.symm) hchars
  | .const c => exact Expr.eq_of_word hP h₁ h₂ (.inr ⟨c, rfl⟩) (Expr.word_of_spine h.symm) hchars
  | .call func args =>
    obtain ⟨func', rfl, hfunc⟩ := Expr.eq_call_of_spine h.symm
    rw [Expr.spine_inj hP (h₁.child (by simp [Node.children, Expr.children]))
      (h₂.child (by simp [Node.children, Expr.children])) hfunc.symm]
  | .index var idx =>
    obtain ⟨var', rfl, hvar⟩ := Expr.eq_index_of_spine h.symm
    rw [Expr.spine_inj hP (h₁.child (by simp [Node.children, Expr.children]))
      (h₂.child (by simp [Node.children, Expr.children])) hvar.symm]
  | .access _ _ | .cast _ _ | .unary _ _ | .binary _ _ _ | .assign _ _ _ =>
    exact (Expr.eq_group_of_spine h.symm).symm

theorem TypeBase.chars_inj {base₁ base₂ : TypeBase}
    (h₁ : ∀ id, base₁ = .reference id → id ∉ expressionWords)
    (h₂ : ∀ id, base₂ = .reference id → id ∉ expressionWords) (h : base₁.chars = base₂.chars) :
    base₁ = base₂ := by
  cases base₁ with
  | primitive kind₁ =>
    cases base₂ with
    | primitive kind₂ => rw [Primitive.keyword_inj (String.toList_inj.mp h)]
    | reference id =>
      have hid : kind₁.keyword = id := String.toList_inj.mp h
      exact absurd (hid ▸ kind₁.keyword_mem) (h₂ id rfl)
  | reference id₁ =>
    cases base₂ with
    | primitive kind =>
      have hid : id₁ = kind.keyword := String.toList_inj.mp h
      exact absurd (hid ▸ kind.keyword_mem) (h₁ id₁ rfl)
    | reference id₂ => rw [String.toList_inj.mp h]

theorem Ty.reference_not_mem (hP : Readable P) {ty : Ty} (h : ty.All P) :
    ∀ id, ty.base = .reference id → id ∉ expressionWords := by
  intro id hbase
  have hid : (Node.name id).Everywhere P := h.child (by simp [Node.children, Ty.children, hbase])
  exact (hP.name hid.self).2

theorem Ty.spine_inj (hP : Readable P) {ty₁ ty₂ : Ty} (h₁ : ty₁.All P) (h₂ : ty₂.All P)
    (h : ty₁.spine = ty₂.spine) : ty₁ = ty₂ := by
  have hdims₁ := hP.dims h₁.self
  have hdims₂ := hP.dims h₂.self
  have href₁ := Ty.reference_not_mem hP h₁
  have href₂ := Ty.reference_not_mem hP h₂
  obtain ⟨base₁, dims₁⟩ := ty₁
  obtain ⟨base₂, dims₂⟩ := ty₂
  simp only [Ty.spine, Spine.mk.injEq, Head.word.injEq, true_and] at h
  have hitems := (List.map_inj_right fun _ _ h => Suffix.item.inj h).mp h.2
  -- An empty list of dimensions would be written like a missing one.
  have hdims : dims₁ = dims₂ := by
    cases dims₁ <;> cases dims₂ <;> simp_all
  have hbase : base₁ = base₂ := TypeBase.chars_inj href₁ href₂ h.1
  rw [hbase, hdims]

end

/-! ## Operators -/

/-- Whether a head can begin with the character. -/
def beginsHead (c : Char) : Bool := isWordChar c || c == '('

/-- The spelling of an operator between two operands: it has no space in it and no head begins like
it, nor does a negative literal. -/
def Between (t : List Char) : Prop :=
  (∀ c ∈ t, (c != ' ') = true) ∧
    ∃ c s, t = c :: s ∧ beginsHead c = false ∧ (c = '-' → s = [] ∨ s = ['='])

theorem BinaryOp.between_symbol (op : BinaryOp) : Between op.symbol.toList := by
  cases op <;> exact ⟨by simp [BinaryOp.symbol], _, _, rfl, rfl, by decide⟩

theorem AssignOp.between_symbol (op : AssignOp) : Between op.symbol.toList := by
  cases op <;> exact ⟨by simp [AssignOp.symbol], _, _, rfl, rfl, by decide⟩

/-- Operators that are found by their spellings are told apart by them. -/
theorem eq_of_find_symbol {α : Type} {all : List α} {symbol : α → String}
    (hfind : ∀ op, all.find? (symbol · == symbol op) = some op) {op₁ op₂ : α}
    (h : symbol op₁ = symbol op₂) : op₁ = op₂ := by
  have h₁ := hfind op₁
  rw [h, hfind op₂] at h₁
  exact (Option.some.inj h₁).symm

theorem BinaryOp.find_symbol (op : BinaryOp) : all.find? (·.symbol == op.symbol) = some op := by
  cases op <;> decide +kernel

theorem BinaryOp.symbol_inj {op₁ op₂ : BinaryOp} (h : op₁.symbol = op₂.symbol) : op₁ = op₂ :=
  eq_of_find_symbol find_symbol h

theorem AssignOp.find_symbol (op : AssignOp) : all.find? (·.symbol == op.symbol) = some op := by
  cases op <;> decide +kernel

theorem AssignOp.symbol_inj {op₁ op₂ : AssignOp} (h : op₁.symbol = op₂.symbol) : op₁ = op₂ :=
  eq_of_find_symbol find_symbol h

/-- No assignment is spelled like another operator. -/
theorem AssignOp.symbol_ne_binary (op : AssignOp) (op' : BinaryOp) : op.symbol ≠ op'.symbol := by
  intro h
  have hfind : BinaryOp.all.find? (·.symbol == op.symbol) = none := by
    cases op <;> decide +kernel
  rw [h, op'.find_symbol] at hfind
  cases hfind

/-! ## Groups -/

/-- The symbol in front of the first operand of a group. A minus is part of the operand's spine. -/
def Expr.opening : Expr → List Char
  | .unary op _ => if op.followsOperand || op == .neg then [] else op.symbol.toList
  | _ => []

/-- The spine of the first operand of a group. -/
def Expr.lead : Expr → Spine
  | .access var _ => var.spine
  | .cast ty _ => ty.spine
  | .unary op e => if op == .neg then { e.spine with minus := true } else e.spine
  | .binary _ left _ => left.spine
  | .assign _ lval _ => lval.spine
  | e => e.spine

/-- What follows the first operand of a group: a symbol that may be missing, a field, a second
operand, or an operator and a second operand. -/
inductive Closing
  | symbol (s : List Char)
  | field (expr : Expr)
  | operand (expr : Expr)
  | between (s : List Char) (expr : Expr)

def Closing.chars : Closing → List Char
  | .symbol s => s ++ [')']
  | .field e => '.' :: (e.chars ++ [')'])
  | .operand e => ' ' :: (e.chars ++ [')'])
  | .between s e => ' ' :: (s ++ ' ' :: (e.chars ++ [')']))

def Expr.closing : Expr → Closing
  | .access _ field => .field field
  | .cast _ e => .operand e
  | .unary op _ => .symbol (if op.followsOperand then op.symbol.toList else [])
  | .binary op _ right => .between op.symbol.toList right
  | .assign op _ rval => .between op.symbol.toList rval
  | _ => .symbol []

section

variable {P : Node → Prop}

theorem Spine.chars_minus {s : Spine} (h : s.minus = false) :
    { s with minus := true }.chars = '-' :: s.chars := by
  simp [Spine.chars, signChars, h]

theorem Expr.chars_group (hP : Readable P) {e : Expr} (hgroup : e.isGroup = true) (h : e.All P) :
    e.chars = '(' :: (e.opening ++ (e.lead.chars ++ e.closing.chars)) := by
  cases e with
  | ident | const | call | index => cases hgroup
  | access var field =>
    simp [Expr.chars, Expr.opening, Expr.lead, Expr.closing, Closing.chars, Expr.chars_spine]
  | cast ty e =>
    simp [Expr.chars, Expr.opening, Expr.lead, Expr.closing, Closing.chars, Ty.chars_spine]
  | binary op left right =>
    simp [Expr.chars, Expr.opening, Expr.lead, Expr.closing, Closing.chars, Expr.chars_spine]
  | assign op lval rval =>
    simp [Expr.chars, Expr.opening, Expr.lead, Expr.closing, Closing.chars, Expr.chars_spine]
  | unary op e =>
    by_cases hop : op = .neg
    · subst hop
      have hminus := Spine.chars_minus (hP.neg h)
      simp [Expr.chars, Expr.opening, Expr.lead, Expr.closing, Closing.chars, hminus,
        Expr.chars_spine, UnaryOp.followsOperand, UnaryOp.symbol]
    · cases hfollows : op.followsOperand <;>
        simp [Expr.chars, Expr.opening, Expr.lead, Expr.closing, Closing.chars, Expr.chars_spine,
          hop, hfollows]

theorem Expr.lead_legible (hP : Readable P) {e : Expr} (hgroup : e.isGroup = true) (h : e.All P) :
    e.lead.Legible P := by
  have part {e' : Expr} (he' : .expr e' ∈ e.children) : e'.spine.Legible P :=
    Expr.spine_legible hP (h.child he')
  cases e with
  | ident | const | call | index => cases hgroup
  | access var field => exact part (by simp [Expr.children])
  | cast ty e => exact Ty.spine_legible hP (h.child (by simp [Node.children, Expr.children]))
  | binary op left right => exact part (by simp [Expr.children])
  | assign op lval rval => exact part (by simp [Expr.children])
  | unary op e =>
    have he : e.spine.Legible P := part (by simp [Expr.children])
    rw [Expr.lead]
    split
    · exact ⟨he.head, he.suffixes⟩
    · exact he

end

def Closing.Legible (P : Node → Prop) : Closing → Prop
  | .symbol s => s ∈ [[], ['+', '+'], ['-', '-']]
  | .field e => e.All P
  | .operand e => e.All P
  | .between s e => Between s ∧ e.All P

theorem Expr.closing_legible {P : Node → Prop} {e : Expr} (h : e.All P) :
    e.closing.Legible P := by
  have part {e' : Expr} (he' : .expr e' ∈ e.children) : e'.All P := h.child he'
  cases e with
  | ident | const | call | index => exact List.mem_cons_self
  | access var field => exact part (by simp [Expr.children])
  | cast ty e => exact part (by simp [Expr.children])
  | unary op e =>
    cases op <;> simp [Expr.closing, Closing.Legible, UnaryOp.followsOperand, UnaryOp.symbol]
  | binary op left right => exact ⟨op.between_symbol, part (by simp [Expr.children])⟩
  | assign op lval rval => exact ⟨op.between_symbol, part (by simp [Expr.children])⟩

theorem UnaryOp.eq_of_opening {op₁ op₂ : UnaryOp} {e₁ e₂ : Expr}
    (hopening : (Expr.unary op₁ e₁).opening = (Expr.unary op₂ e₂).opening)
    (hclosing : (Expr.unary op₁ e₁).closing = (Expr.unary op₂ e₂).closing) : op₁ = op₂ := by
  cases op₁ <;> cases op₂ <;>
    simp_all [Expr.opening, Expr.closing, UnaryOp.followsOperand, UnaryOp.symbol]

theorem Spine.eq_of_minus {s₁ s₂ : Spine} (h₁ : s₁.minus = false) (h₂ : s₂.minus = false)
    (h : { s₁ with minus := true } = { s₂ with minus := true }) : s₁ = s₂ := by
  cases s₁
  cases s₂
  simp_all

/-- A group is determined by its opening, its first operand and its closing. -/
theorem Expr.group_inj {P : Node → Prop} (hP : Readable P) {e₁ e₂ : Expr}
    (hgroup₁ : e₁.isGroup = true) (hgroup₂ : e₂.isGroup = true) (h₁ : e₁.All P) (h₂ : e₂.All P)
    (hopening : e₁.opening = e₂.opening) (hlead : e₁.lead = e₂.lead)
    (hclosing : e₁.closing = e₂.closing) : e₁ = e₂ := by
  have part {e₁' e₂' : Expr} (he₁ : .expr e₁' ∈ e₁.children) (he₂ : .expr e₂' ∈ e₂.children)
      (h : e₁'.spine = e₂'.spine) : e₁' = e₂' :=
    Expr.spine_inj hP (h₁.child he₁) (h₂.child he₂) h
  cases e₁ with
  | ident | const | call | index => cases hgroup₁
  | access var₁ field₁ =>
    cases e₂ with
    | ident | const | call | index => cases hgroup₂
    | cast | unary | binary | assign => cases hclosing
    | access var₂ field₂ =>
      cases hclosing
      rw [part (by simp [Expr.children]) (by simp [Expr.children]) hlead]
  | cast ty₁ e₁ =>
    cases e₂ with
    | ident | const | call | index => cases hgroup₂
    | access | unary | binary | assign => cases hclosing
    | cast ty₂ e₂ =>
      cases hclosing
      rw [Ty.spine_inj hP (h₁.child (by simp [Node.children, Expr.children]))
        (h₂.child (by simp [Node.children, Expr.children])) hlead]
  | unary op₁ e₁ =>
    cases e₂ with
    | ident | const | call | index => cases hgroup₂
    | access | cast | binary | assign => cases hclosing
    | unary op₂ e₂ =>
      obtain rfl := UnaryOp.eq_of_opening hopening hclosing
      have hspine : e₁.spine = e₂.spine := by
        by_cases hop : op₁ = .neg
        · -- Both leads carry the minus of the negation, and neither operand has one of its own.
          subst hop
          exact Spine.eq_of_minus (hP.neg h₁) (hP.neg h₂) hlead
        · simpa [Expr.lead, hop] using hlead
      rw [part (by simp [Expr.children]) (by simp [Expr.children]) hspine]
  | binary op₁ left₁ right₁ =>
    cases e₂ with
    | ident | const | call | index => cases hgroup₂
    | access | cast | unary => cases hclosing
    | binary op₂ left₂ right₂ =>
      obtain ⟨hsym, rfl⟩ := Closing.between.inj hclosing
      rw [BinaryOp.symbol_inj (String.toList_inj.mp hsym),
        part (by simp [Expr.children]) (by simp [Expr.children]) hlead]
    | assign op₂ lval rval =>
      obtain ⟨hsym, -⟩ := Closing.between.inj hclosing
      exact absurd (String.toList_inj.mp hsym).symm (op₂.symbol_ne_binary op₁)
  | assign op₁ lval₁ rval₁ =>
    cases e₂ with
    | ident | const | call | index => cases hgroup₂
    | access | cast | unary => cases hclosing
    | assign op₂ lval₂ rval₂ =>
      obtain ⟨hsym, rfl⟩ := Closing.between.inj hclosing
      rw [AssignOp.symbol_inj (String.toList_inj.mp hsym),
        part (by simp [Expr.children]) (by simp [Expr.children]) hlead]
    | binary op₂ left right =>
      obtain ⟨hsym, -⟩ := Closing.between.inj hclosing
      exact absurd (String.toList_inj.mp hsym) (op₁.symbol_ne_binary op₂)

end SyntaxForest
