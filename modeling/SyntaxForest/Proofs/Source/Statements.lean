import SyntaxForest.Proofs.Source.Expressions
import SyntaxForest.Proofs.Tree.Checked

/-!
# Statements are told apart by their texts

A statement has no mark at its end. Behind it stands the end of the text, the end of a line, or the
word `else`; the last only behind a statement that would not take the `else` for itself. Under that
condition two statements with the same text are the same (`Stmt.unique`). The first word of a
statement says of which form it is, except that an expression may begin like a declaration; then
the word behind the type decides.
-/

namespace SyntaxForest

open Renderer

/-! ## Readable programs -/

/-- The words with which statements and structures begin or go on. -/
def statementWords : List String :=
  ["if", "else", "while", "return", "break", "continue", "struct"]

/-- Whether an `else` behind the statement would belong to an `if` inside it. -/
def Stmt.endsOpen : Stmt → Bool
  | .ite _ _ none => true
  | .ite _ _ (some s) => s.endsOpen
  | .loop _ body => body.endsOpen
  | _ => false

/-- A condition on the nodes of a program that keeps apart what its words and branches belong to. -/
structure ReadableProgram (P : Node → Prop) : Prop extends Readable P where
  word {id : String} (h : P (.name id)) : id ∉ statementWords
  declares {d : Declaration} (h : P (.declaration d)) : d.declarators ≠ []
  settled {condition : Expr} {thenBranch branch : Stmt}
    (h : P (.stmt (.ite condition thenBranch (some branch)))) : thenBranch.endsOpen = false

/-- The condition holds everywhere in the statement. -/
abbrev Stmt.All (P : Node → Prop) (s : Stmt) : Prop := (Node.stmt s).Everywhere P

theorem isName_of_mem_statementWords {w : String} (h : w ∈ statementWords) : isName w = true := by
  revert w
  decide +kernel

theorem not_mem_expressionWords {w : String} (h : w ∈ statementWords) : w ∉ expressionWords := by
  revert w
  decide +kernel

section

variable {P : Node → Prop} {r t : List Char} {w : String}

/-- A text that begins with a keyword has the keyword as its spine. -/
theorem Spine.eq_keyword (hP : Readable P) {s : Spine} (hs : s.Legible P)
    (hw : w ∈ statementWords) (hr : Stops continuesExpr r) (ht : Stops continuesExpr t)
    (h : s.chars ++ r = w.toList ++ t) : s = ⟨false, .word w.toList, []⟩ := by
  have hword : (⟨false, .word w.toList, []⟩ : Spine).Legible P :=
    ⟨isWord_of_isName (isName_of_mem_statementWords hw), by simp⟩
  apply (Spine.unique hP hs hword hr ht _).1
  simpa [Spine.chars, Head.chars, signChars] using h

/-- No expression begins with a keyword. -/
theorem Expr.ne_keyword (hP : ReadableProgram P) {e : Expr} (he : e.All P)
    (hw : w ∈ statementWords) (hr : Stops continuesExpr r) (ht : Stops continuesExpr t) :
    e.chars ++ r ≠ w.toList ++ t := by
  intro h
  rw [← e.chars_spine] at h
  have hspine := Spine.eq_keyword hP.toReadable (Expr.spine_legible hP.toReadable he) hw hr ht h
  have hchars : e.chars = w.toList := by
    rw [← e.chars_spine, hspine]
    simp [Spine.chars, Head.chars, signChars]
  rcases Expr.word_of_spine hspine with ⟨id, rfl⟩ | ⟨c, rfl⟩
  · have hid : id = w := String.toList_inj.mp hchars
    exact hP.word he.self (hid ▸ hw)
  · exact Constant.literal_ne_name (hP.const he.self) (isName_of_mem_statementWords hw)
      (not_mem_expressionWords hw) hchars

/-- No type begins with a keyword of statements. -/
theorem Ty.ne_keyword (hP : ReadableProgram P) {ty : Ty} (hty : ty.All P)
    (hw : w ∈ statementWords) (hr : Stops continuesExpr r) (ht : Stops continuesExpr t) :
    ty.chars ++ r ≠ w.toList ++ t := by
  intro h
  rw [← ty.chars_spine] at h
  have hspine := Spine.eq_keyword hP.toReadable (Ty.spine_legible hP.toReadable hty) hw hr ht h
  obtain ⟨base, dims⟩ := ty
  simp only [Ty.spine, Spine.mk.injEq, Head.word.injEq, true_and] at hspine
  cases base with
  | primitive kind =>
    have hkind : kind.keyword = w := String.toList_inj.mp hspine.1
    exact not_mem_expressionWords hw (hkind ▸ kind.keyword_mem)
  | reference id =>
    have hid : id = w := String.toList_inj.mp hspine.1
    have hname : (Node.name id).Everywhere P := hty.child (by simp [Node.children, Ty.children])
    exact hP.word hname.self (hid ▸ hw)

end

/-! ## What stands behind a statement -/

/-- What may stand behind a statement: nothing, the end of the line or, unless the statement ends
open, an `else`. -/
def Follows (isOpen : Bool) (r : List Char) : Prop :=
  r = [] ∨ (∃ t, r = '\n' :: t) ∨ isOpen = false ∧ ∃ t, r = ' ' :: ("else".toList ++ ' ' :: t)

section

variable {isOpen : Bool} {r : List Char}

theorem Follows.imp {isOpen' : Bool} (h : Follows isOpen r)
    (hopen : isOpen = false → isOpen' = false) : Follows isOpen' r := by
  rcases h with h | h | ⟨ho, h⟩
  · exact .inl h
  · exact .inr (.inl h)
  · exact .inr (.inr ⟨hopen ho, h⟩)

theorem Follows.stops (h : Follows isOpen r) : Stops continuesExpr r := by
  rcases h with rfl | ⟨t, rfl⟩ | ⟨-, t, rfl⟩
  · exact Stops.nil
  · exact Stops.cons _ rfl
  · exact Stops.cons _ rfl

/-- Behind a space only an `else` follows. -/
theorem Follows.eq_else {t : List Char} (h : Follows isOpen (' ' :: t)) :
    isOpen = false ∧ ∃ s, t = "else".toList ++ ' ' :: s := by
  rcases h with h | ⟨s, h⟩ | ⟨ho, s, h⟩
  · cases h
  · cases h
  · exact ⟨ho, s, (List.cons.inj h).2⟩

end

/-! ## Forms of statements -/

/-- How a statement begins. -/
inductive Form
  | keyword (w : String)
  | block
  | plain

def Stmt.form : Stmt → Form
  | .brk => .keyword "break"
  | .cont => .keyword "continue"
  | .ret _ => .keyword "return"
  | .block _ => .block
  | .expr _ => .plain
  | .decl _ => .plain
  | .ite _ _ _ => .keyword "if"
  | .loop _ _ => .keyword "while"

/-- The text begins as a statement of the form does. -/
inductive Begins (P : Node → Prop) (t : List Char) : Form → Prop
  | keyword {w : String} {r : List Char} (hw : w ∈ statementWords) (hr : Stops continuesExpr r)
      (h : t = w.toList ++ r) : Begins P t (.keyword w)
  | block {r : List Char} (h : t = '\x7b' :: r) : Begins P t .block
  | expr {e : Expr} {r : List Char} (he : e.All P) (hr : Stops continuesExpr r)
      (h : t = e.chars ++ r) : Begins P t .plain
  | type {ty : Ty} {r : List Char} (hty : ty.All P) (h : t = ty.chars ++ ' ' :: r) :
      Begins P t .plain

section

variable {P : Node → Prop} {t : List Char}

theorem Stmt.begins {s : Stmt} (hs : s.All P) (level : Nat) {r : List Char}
    (hr : Follows s.endsOpen r) : Begins P (s.chars level ++ r) s.form := by
  cases s with
  | brk => exact .keyword (by simp [statementWords]) hr.stops rfl
  | cont => exact .keyword (by simp [statementWords]) hr.stops rfl
  | ret value =>
    cases value with
    | none => exact .keyword (by simp [statementWords]) hr.stops rfl
    | some e => exact .keyword (by simp [statementWords]) (Stops.cons _ rfl) rfl
  | block stats => exact .block rfl
  | expr e => exact .expr (hs.child (by simp [Node.children, Stmt.children])) hr.stops rfl
  | decl d =>
    have hty : d.ty.All P := hs.child (by simp [Node.children, Stmt.children])
    exact .type hty (by rw [Stmt.chars, Declaration.chars, List.append_assoc, List.cons_append])
  | ite condition thenBranch elseBranch =>
    exact .keyword (by simp [statementWords]) (Stops.cons _ rfl) rfl
  | loop condition body => exact .keyword (by simp [statementWords]) (Stops.cons _ rfl) rfl

theorem Begins.keyword_unique (hP : ReadableProgram P) {w : String} {f : Form}
    (h₁ : Begins P t (.keyword w)) (h₂ : Begins P t f) : f = .keyword w := by
  obtain ⟨hw, hr, rfl⟩ := h₁
  have hword := isWord_of_isName (isName_of_mem_statementWords hw)
  cases h₂ with
  | keyword hw' hr' h =>
    have hword' := isWord_of_isName (isName_of_mem_statementWords hw')
    obtain ⟨hww, -⟩ := hword.unique hword' hr.word hr'.word h
    rw [String.toList_inj.mp hww]
  | block h =>
    obtain ⟨c, s, hcs, hc⟩ := hword.cons
    rw [hcs] at h
    rw [(List.cons.inj h).1] at hc
    cases hc
  | expr he hr' h => exact absurd h.symm (Expr.ne_keyword hP he hw hr' hr)
  | type hty h => exact absurd h.symm (Ty.ne_keyword hP hty hw (Stops.cons _ rfl) hr)

theorem Begins.block_unique (hP : ReadableProgram P) {f : Form} (h₁ : Begins P t .block)
    (h₂ : Begins P t f) : f = .block := by
  have brace {s : List Char} (hs : BeginsSpine s) (h : t = s) : False := by
    cases h₁ with
    | block ht => exact hs.ne_cons (c := '\x7b') rfl (by decide) (h.symm.trans ht)
  cases h₂ with
  | keyword hw hr h => exact ((Begins.keyword hw hr h).keyword_unique hP h₁).symm
  | block h => rfl
  | expr he hr h => exact (brace (Expr.begins hP.toReadable he _) h).elim
  | type hty h => exact (brace (Ty.begins hP.toReadable hty _) h).elim

/-- A text begins in one form only. -/
theorem Begins.unique (hP : ReadableProgram P) {f₁ f₂ : Form} (h₁ : Begins P t f₁)
    (h₂ : Begins P t f₂) : f₁ = f₂ := by
  cases f₁ with
  | keyword w => exact (h₁.keyword_unique hP h₂).symm
  | block => exact (h₁.block_unique hP h₂).symm
  | plain =>
    cases f₂ with
    | keyword w => exact h₂.keyword_unique hP h₁
    | block => exact h₂.block_unique hP h₁
    | plain => rfl

end

/-! ## Declarations -/

/-- The condition holds everywhere in the declared name and its initial value. -/
abbrev Declarator.All (P : Node → Prop) (d : Declarator) : Prop := (Node.declarator d).Everywhere P

/-- The condition holds everywhere in the declaration. -/
abbrev Declaration.All (P : Node → Prop) (d : Declaration) : Prop :=
  (Node.declaration d).Everywhere P

/-- The text of an initial value, with the sign in front of it. -/
def Expr.initChars : Option Expr → List Char
  | none => []
  | some e => ' ' :: '=' :: ' ' :: e.chars

/-- What may stand behind a declared name and its initial value. -/
def EndsDeclarator (r : List Char) : Prop := Stops continuesExpr r ∧ ∀ t, r ≠ ' ' :: '=' :: t

theorem Declarator.chars_eq (d : Declarator) :
    d.chars = d.id.toList ++ Expr.initChars d.init := by
  obtain ⟨id, init⟩ := d
  cases init <;> simp [Declarator.chars, Expr.initChars]

section

variable {P : Node → Prop} {r₁ r₂ : List Char}

theorem stops_initChars (init : Option Expr) {r : List Char} (hr : Stops continuesExpr r) :
    Stops isWordChar (Expr.initChars init ++ r) := by
  cases init with
  | none => exact hr.word
  | some e => exact Stops.cons _ rfl

theorem Declarator.isName (hP : ReadableProgram P) {d : Declarator} (hd : d.All P) :
    isName d.id = true ∧ d.id ∉ statementWords := by
  have hid : (Node.name d.id).Everywhere P := hd.child (by simp [Node.children])
  exact ⟨(hP.name hid.self).1, hP.word hid.self⟩

theorem Declarator.cons (hP : ReadableProgram P) {d : Declarator} (hd : d.All P) :
    ∃ c s, d.chars = c :: s ∧ isWordChar c = true := by
  obtain ⟨c, s, hcs, hc⟩ := (isWord_of_isName (Declarator.isName hP hd).1).cons
  exact ⟨c, s ++ Expr.initChars d.init, by rw [Declarator.chars_eq, hcs, List.cons_append], hc⟩

/-- No declared name is taken for an `else`. -/
theorem Declarator.ne_else (hP : ReadableProgram P) {d : Declarator} (hd : d.All P)
    {r t : List Char} (hr : Stops continuesExpr r) :
    d.chars ++ r ≠ "else".toList ++ ' ' :: t := by
  intro h
  obtain ⟨hname, hwords⟩ := Declarator.isName hP hd
  rw [Declarator.chars_eq, List.append_assoc] at h
  have helse : IsWord "else".toList := isWord_of_isName (by decide +kernel)
  obtain ⟨hid, -⟩ := (isWord_of_isName hname).unique helse (stops_initChars d.init hr)
    (Stops.cons t rfl) h
  rw [String.toList_inj.mp hid] at hwords
  exact hwords (by simp [statementWords])

theorem Declarator.unique (hP : ReadableProgram P) {d₁ d₂ : Declarator} (h₁ : d₁.All P)
    (h₂ : d₂.All P) (hr₁ : EndsDeclarator r₁) (hr₂ : EndsDeclarator r₂)
    (h : d₁.chars ++ r₁ = d₂.chars ++ r₂) : d₁ = d₂ ∧ r₁ = r₂ := by
  rw [Declarator.chars_eq, Declarator.chars_eq, List.append_assoc, List.append_assoc] at h
  obtain ⟨hid, h⟩ := (isWord_of_isName (Declarator.isName hP h₁).1).unique
    (isWord_of_isName (Declarator.isName hP h₂).1) (stops_initChars d₁.init hr₁.1)
    (stops_initChars d₂.init hr₂.1) h
  obtain ⟨id₁, init₁⟩ := d₁
  obtain ⟨id₂, init₂⟩ := d₂
  have hid : id₁ = id₂ := String.toList_inj.mp hid
  subst hid
  cases init₁ with
  | none =>
    cases init₂ with
    | none => exact ⟨rfl, h⟩
    | some e₂ => exact absurd h (hr₁.2 _)
  | some e₁ =>
    cases init₂ with
    | none => exact absurd h.symm (hr₂.2 _)
    | some e₂ =>
      simp only [Expr.initChars, List.cons_append, List.cons.injEq, true_and] at h
      obtain ⟨rfl, hr⟩ := Expr.unique hP.toReadable (h₁.child (by simp [Node.children]))
        (h₂.child (by simp [Node.children])) hr₁.1 hr₂.1 h
      exact ⟨rfl, hr⟩

theorem separated_declarators (hP : ReadableProgram P) :
    Separated Declarator.chars [' '] [] (Declarator.All P) EndsDeclarator (Follows false) where
  next_further {d} s hd := by
    obtain ⟨c, s', hcs, hc⟩ := Declarator.cons hP hd
    refine ⟨Stops.cons _ rfl, ?_⟩
    intro t h
    rw [hcs] at h
    rw [(List.cons.inj (List.cons.inj h).2).1] at hc
    cases hc
  next_of_stop {r} hr := by
    refine ⟨hr.stops, ?_⟩
    rintro t rfl
    obtain ⟨-, s, hs⟩ := hr.eq_else
    cases hs
  first {d s r} hd _ hr h := by
    obtain ⟨c, s', hcs, hc⟩ := Declarator.cons hP hd
    have hstop := hr.stops.word c _ (by rw [← h, hcs, List.nil_append, List.cons_append])
    rw [hc] at hstop
    cases hstop
  further {d s r} hd hs hr h := by
    subst h
    obtain ⟨-, t, ht⟩ := hr.eq_else
    exact Declarator.ne_else hP hd hs.1 ht

theorem Declaration.unique (hP : ReadableProgram P) {d₁ d₂ : Declaration} (h₁ : d₁.All P)
    (h₂ : d₂.All P) (hr₁ : Follows false r₁) (hr₂ : Follows false r₂)
    (h : d₁.chars ++ r₁ = d₂.chars ++ r₂) : d₁ = d₂ ∧ r₁ = r₂ := by
  simp only [Declaration.chars, List.append_assoc, List.cons_append] at h
  obtain ⟨hty, h⟩ := Ty.unique hP.toReadable
    (h₁.child (by simp [Node.children, Stmt.children]))
    (h₂.child (by simp [Node.children, Stmt.children])) (Stops.cons _ rfl) (Stops.cons _ rfl) h
  have part₁ : ∀ x ∈ d₁.declarators, x.All P := fun x hx =>
    h₁.child (by simp [Node.children, Stmt.children, hx])
  have part₂ : ∀ x ∈ d₂.declarators, x.All P := fun x hx =>
    h₂.child (by simp [Node.children, Stmt.children, hx])
  obtain ⟨hdeclarators, hr⟩ := (separated_declarators hP).listChars_unique
    (fun x₁ hx₁ x₂ hx₂ s₁ s₂ => Declarator.unique hP (part₁ x₁ hx₁) (part₂ x₂ hx₂))
    part₁ part₂ hr₁ hr₂ (List.cons.inj h).2
  cases d₁
  cases d₂
  simp_all

/-- An expression is no declaration: behind the type stands a name, and that name is no `else`. -/
theorem Declaration.ne_expr (hP : ReadableProgram P) {d : Declaration} (hd : d.All P) {e : Expr}
    (he : e.All P) (hr₁ : Follows false r₁) (hr₂ : Follows false r₂) :
    e.chars ++ r₁ ≠ d.chars ++ r₂ := by
  intro h
  have hne := hP.declares hd.self
  have hty : d.ty.All P := hd.child (by simp [Node.children, Stmt.children])
  have part : ∀ x ∈ d.declarators, x.All P := fun x hx =>
    hd.child (by simp [Node.children, Stmt.children, hx])
  simp only [Declaration.chars, List.append_assoc, List.cons_append] at h
  -- The expression can only be the declared type, and then what follows it is an `else`.
  obtain rfl := Expr.unique_type hP.toReadable he hty hr₁.stops (Stops.cons _ rfl) h
  obtain ⟨-, t, ht⟩ := hr₁.eq_else
  cases hdeclarators : d.declarators with
  | nil => exact hne hdeclarators
  | cons x xs =>
    rw [hdeclarators, List.forall_mem_cons] at part
    rw [hdeclarators] at ht
    simp only [List.map_cons, listChars, List.nil_append, List.append_assoc] at ht
    have hrest := (separated_declarators hP).next_restChars part.2 hr₂
    exact Declarator.ne_else hP part.1 hrest.1 ht

end

/-! ## Lines -/

/-- Lines one level further in are told from the line that closes the braces. -/
theorem separated_lines {α : Type} (text : α → List Char) (level : Nat) :
    Separated text ['\n'] (indent (level + 1)) (fun _ => True) (fun r => ∃ t, r = '\n' :: t)
      (fun r => ∃ t, r = '\n' :: (indent level ++ '\x7d' :: t)) where
  next_further s _ := ⟨_, rfl⟩
  next_of_stop := by
    rintro r ⟨t, rfl⟩
    exact ⟨_, rfl⟩
  first := by
    rintro a s r - - ⟨t, rfl⟩ h
    obtain ⟨t', ht'⟩ := indent_succ_cons level
    rw [ht'] at h
    cases h
  further := by
    -- Where one line goes on with the inner indentation, the other has the closing brace.
    rintro a s r - - ⟨t, rfl⟩ h
    rw [indent_succ] at h
    simp at h

theorem Stmt.texts_eq_map (level : Nat) (ss : List Stmt) :
    Stmt.texts level ss = ss.map (Stmt.chars level) := by
  induction ss with
  | nil => rfl
  | cons s ss ih => rw [Stmt.texts, ih, List.map_cons]

/-! ## Statements -/

/-- The statement is told apart from all others. -/
def Stmt.Unique (P : Node → Prop) (s₁ : Stmt) : Prop :=
  ∀ (level : Nat) (s₂ : Stmt) (r₁ r₂ : List Char), s₂.All P → Follows s₁.endsOpen r₁ →
    Follows s₂.endsOpen r₂ → s₁.chars level ++ r₁ = s₂.chars level ++ r₂ → s₁ = s₂ ∧ r₁ = r₂

section

variable {P : Node → Prop}

/-- Two blocks are told apart when the statements of the first are. -/
theorem blockChars_unique {ss₁ ss₂ : List Stmt} {level : Nat} {r₁ r₂ : List Char}
    (hunique : ∀ s ∈ ss₁, s.Unique P) (h₂ : ∀ s ∈ ss₂, s.All P)
    (h : blockChars level (Stmt.texts (level + 1) ss₁) ++ r₁ =
      blockChars level (Stmt.texts (level + 1) ss₂) ++ r₂) : ss₁ = ss₂ ∧ r₁ = r₂ := by
  simp only [blockChars, Stmt.texts_eq_map, List.cons_append, List.append_assoc, List.nil_append,
    List.cons.injEq, true_and] at h
  obtain ⟨hss, hr⟩ := (separated_lines (Stmt.chars (level + 1)) level).listChars_unique
    (fun s₁ hs₁ s₂ hs₂ t₁ t₂ ht₁ ht₂ => hunique s₁ hs₁ (level + 1) s₂ t₁ t₂ (h₂ s₂ hs₂)
      (.inr (.inl ht₁)) (.inr (.inl ht₂)))
    (fun _ _ => trivial) (fun _ _ => trivial) ⟨r₁, rfl⟩ ⟨r₂, rfl⟩ h
  exact ⟨hss, by simpa using hr⟩

theorem Stmt.form_unique (hP : ReadableProgram P) {s₁ s₂ : Stmt} (h₁ : s₁.All P) (h₂ : s₂.All P)
    {level : Nat} {r₁ r₂ : List Char} (hr₁ : Follows s₁.endsOpen r₁)
    (hr₂ : Follows s₂.endsOpen r₂) (h : s₁.chars level ++ r₁ = s₂.chars level ++ r₂) :
    s₁.form = s₂.form :=
  (Stmt.begins h₁ level hr₁).unique hP (h ▸ Stmt.begins h₂ level hr₂)

theorem Stmt.unique_ret (hP : ReadableProgram P) {value : Option Expr}
    (h₁ : (Stmt.ret value).All P) : (Stmt.ret value).Unique P := by
  intro level s₂ r₁ r₂ h₂ hr₁ hr₂ h
  have hform := Stmt.form_unique hP h₁ h₂ hr₁ hr₂ h
  have bare {e : Expr} (he : e.All P) {r t : List Char} (hr : Follows false r)
      (ht : Follows false t) : t ≠ ' ' :: (e.chars ++ r) := by
    -- What follows a bare `return` could only be an `else`.
    rintro rfl
    obtain ⟨-, s, hs⟩ := ht.eq_else
    exact Expr.ne_keyword hP he (by simp [statementWords]) hr.stops (Stops.cons _ rfl) hs
  cases s₂ with
  | ret value₂ =>
    simp only [Stmt.chars, List.append_assoc, List.append_cancel_left_eq] at h
    cases value with
    | none =>
      cases value₂ with
      | none => exact ⟨rfl, h⟩
      | some e₂ =>
        exact absurd h (bare (h₂.child (by simp [Node.children, Stmt.children])) hr₂ hr₁)
    | some e₁ =>
      cases value₂ with
      | none =>
        exact absurd h.symm (bare (h₁.child (by simp [Node.children, Stmt.children])) hr₁ hr₂)
      | some e₂ =>
        obtain ⟨rfl, hr⟩ := Expr.unique hP.toReadable
          (h₁.child (by simp [Node.children, Stmt.children]))
          (h₂.child (by simp [Node.children, Stmt.children])) hr₁.stops hr₂.stops
          (List.cons.inj h).2
        exact ⟨rfl, hr⟩
  | _ => simp [Stmt.form] at hform

theorem Stmt.unique_block (hP : ReadableProgram P) {stats : List Stmt}
    (h₁ : (Stmt.block stats).All P) (ih : ∀ s ∈ stats, s.Unique P) :
    (Stmt.block stats).Unique P := by
  intro level s₂ r₁ r₂ h₂ hr₁ hr₂ h
  have hform := Stmt.form_unique hP h₁ h₂ hr₁ hr₂ h
  cases s₂ with
  | block stats₂ =>
    have part : ∀ s ∈ stats₂, s.All P := fun s hs =>
      h₂.child (by simp [Node.children, Stmt.children, hs])
    obtain ⟨rfl, hr⟩ := blockChars_unique ih part h
    exact ⟨rfl, hr⟩
  | _ => simp [Stmt.form] at hform

theorem Stmt.unique_expr (hP : ReadableProgram P) {e : Expr} (h₁ : (Stmt.expr e).All P) :
    (Stmt.expr e).Unique P := by
  intro level s₂ r₁ r₂ h₂ hr₁ hr₂ h
  have hform := Stmt.form_unique hP h₁ h₂ hr₁ hr₂ h
  have he : e.All P := h₁.child (by simp [Node.children, Stmt.children])
  cases s₂ with
  | expr e₂ =>
    obtain ⟨rfl, hr⟩ := Expr.unique hP.toReadable he
      (h₂.child (by simp [Node.children, Stmt.children])) hr₁.stops hr₂.stops h
    exact ⟨rfl, hr⟩
  | decl d => exact absurd h (Declaration.ne_expr hP h₂ he hr₁ hr₂)
  | _ => simp [Stmt.form] at hform

theorem Stmt.unique_decl (hP : ReadableProgram P) {d : Declaration} (h₁ : (Stmt.decl d).All P) :
    (Stmt.decl d).Unique P := by
  intro level s₂ r₁ r₂ h₂ hr₁ hr₂ h
  have hform := Stmt.form_unique hP h₁ h₂ hr₁ hr₂ h
  cases s₂ with
  | decl d₂ =>
    obtain ⟨rfl, hr⟩ := Declaration.unique hP h₁ h₂ hr₁ hr₂ h
    exact ⟨rfl, hr⟩
  | expr e =>
    have he : e.All P := h₂.child (by simp [Node.children, Stmt.children])
    exact absurd h.symm (Declaration.ne_expr hP h₁ he hr₂ hr₁)
  | _ => simp [Stmt.form] at hform

/-- A condition is told apart, with what stands behind its parenthesis. -/
theorem Expr.unique_condition (hP : ReadableProgram P) {e₁ e₂ : Expr} (h₁ : e₁.All P)
    (h₂ : e₂.All P) {r₁ r₂ : List Char}
    (h : e₁.chars ++ ')' :: ' ' :: r₁ = e₂.chars ++ ')' :: ' ' :: r₂) : e₁ = e₂ ∧ r₁ = r₂ := by
  obtain ⟨he, hr⟩ := Expr.unique hP.toReadable h₁ h₂ (Stops.cons _ rfl) (Stops.cons _ rfl) h
  exact ⟨he, by simpa using hr⟩

theorem Stmt.unique_loop (hP : ReadableProgram P) {condition : Expr} {body : Stmt}
    (h₁ : (Stmt.loop condition body).All P) (ih : body.Unique P) :
    (Stmt.loop condition body).Unique P := by
  intro level s₂ r₁ r₂ h₂ hr₁ hr₂ h
  have hform := Stmt.form_unique hP h₁ h₂ hr₁ hr₂ h
  cases s₂ with
  | loop condition₂ body₂ =>
    simp only [Stmt.chars, List.append_assoc, List.cons_append, List.append_cancel_left_eq,
      List.cons.injEq, true_and] at h
    obtain ⟨rfl, hbody⟩ := Expr.unique_condition hP
      (h₁.child (by simp [Node.children, Stmt.children]))
      (h₂.child (by simp [Node.children, Stmt.children])) h
    obtain ⟨rfl, hr⟩ := ih level body₂ r₁ r₂
      (h₂.child (by simp [Node.children, Stmt.children])) hr₁ hr₂ hbody
    exact ⟨rfl, hr⟩
  | _ => simp [Stmt.form] at hform

/-- What stands behind the first branch may stand there: an `else` of the same statement does, since
the branch does not end open. -/
theorem Stmt.follows_elseChars (hP : ReadableProgram P) {condition : Expr} {thenBranch : Stmt}
    {elseBranch : Option Stmt} (h : (Stmt.ite condition thenBranch elseBranch).All P) (level : Nat)
    {r : List Char} (hr : Follows (Stmt.ite condition thenBranch elseBranch).endsOpen r) :
    Follows thenBranch.endsOpen (Stmt.elseChars level elseBranch ++ r) := by
  cases elseBranch with
  | none => exact hr.imp (by simp [Stmt.endsOpen])
  | some s => exact .inr (.inr ⟨hP.settled h.self, _, rfl⟩)

theorem Stmt.unique_ite (hP : ReadableProgram P) {condition : Expr} {thenBranch : Stmt}
    {elseBranch : Option Stmt} (h₁ : (Stmt.ite condition thenBranch elseBranch).All P)
    (ih : thenBranch.Unique P) (ihElse : ∀ s ∈ elseBranch, s.Unique P) :
    (Stmt.ite condition thenBranch elseBranch).Unique P := by
  intro level s₂ r₁ r₂ h₂ hr₁ hr₂ h
  have hform := Stmt.form_unique hP h₁ h₂ hr₁ hr₂ h
  -- Without an `else` of its own the statement ends open, and no `else` may follow it.
  have missing {s : Stmt} {r t : List Char} (ht : Follows true t) :
      Stmt.elseChars level (some s) ++ r ≠ t := by
    rintro rfl
    cases ht.eq_else.1
  cases s₂ with
  | ite condition₂ thenBranch₂ elseBranch₂ =>
    simp only [Stmt.chars, List.append_assoc, List.cons_append, List.append_cancel_left_eq,
      List.cons.injEq, true_and] at h
    obtain ⟨rfl, hthen⟩ := Expr.unique_condition hP
      (h₁.child (by simp [Node.children, Stmt.children]))
      (h₂.child (by simp [Node.children, Stmt.children])) h
    obtain ⟨rfl, helse⟩ := ih level thenBranch₂ _ _
      (h₂.child (by simp [Node.children, Stmt.children])) (Stmt.follows_elseChars hP h₁ level hr₁)
      (Stmt.follows_elseChars hP h₂ level hr₂) hthen
    cases elseBranch with
    | none =>
      cases elseBranch₂ with
      | none => exact ⟨rfl, helse⟩
      | some s₂ => exact absurd helse.symm (missing hr₁)
    | some s₁ =>
      cases elseBranch₂ with
      | none => exact absurd helse (missing hr₂)
      | some s₂ =>
        simp only [Stmt.elseChars, List.append_assoc, List.cons_append, List.append_cancel_left_eq,
          List.cons.injEq, true_and] at helse
        obtain ⟨rfl, hr⟩ := ihElse s₁ rfl level s₂ r₁ r₂
          (h₂.child (by simp [Node.children, Stmt.children])) hr₁ hr₂ helse
        exact ⟨rfl, hr⟩
  | _ => simp [Stmt.form] at hform

/-- Every statement is told apart from all others. -/
theorem Stmt.unique (hP : ReadableProgram P) {s : Stmt} (h : s.All P) : s.Unique P := by
  -- The induction is on nodes, so that the branches, the body and the statements of a block are
  -- reached alike: as children.
  have below (n : Node) : ∀ s : Stmt, n = .stmt s → s.All P → s.Unique P := by
    apply Node.induction (Q := fun n => ∀ s : Stmt, n = .stmt s → s.All P → s.Unique P) ?_ n
    rintro n ih s rfl h
    have part {s' : Stmt} (hs' : .stmt s' ∈ s.children) : s'.Unique P :=
      ih (.stmt s') hs' s' rfl (h.child hs')
    cases s with
    | brk =>
      intro level s₂ r₁ r₂ h₂ hr₁ hr₂ heq
      have hform := Stmt.form_unique hP h h₂ hr₁ hr₂ heq
      cases s₂ with
      | brk => exact ⟨rfl, by simpa [Stmt.chars] using heq⟩
      | _ => simp [Stmt.form] at hform
    | cont =>
      intro level s₂ r₁ r₂ h₂ hr₁ hr₂ heq
      have hform := Stmt.form_unique hP h h₂ hr₁ hr₂ heq
      cases s₂ with
      | cont => exact ⟨rfl, by simpa [Stmt.chars] using heq⟩
      | _ => simp [Stmt.form] at hform
    | ret value => exact Stmt.unique_ret hP h
    | block stats =>
      exact Stmt.unique_block hP h fun s hs => part (by simp [Stmt.children, hs])
    | expr e => exact Stmt.unique_expr hP h
    | decl d => exact Stmt.unique_decl hP h
    | ite condition thenBranch elseBranch =>
      exact Stmt.unique_ite hP h (part (by simp [Stmt.children]))
        fun s hs => part (by simp_all [Stmt.children])
    | loop condition body => exact Stmt.unique_loop hP h (part (by simp [Stmt.children]))
  exact below (.stmt s) s rfl h

end

end SyntaxForest
