import SyntaxForest.Proofs.Source.Lines
import SyntaxForest.Proofs.Source.Literals
import SyntaxForest.Proofs.Source.Statements

/-!
# The mark of an illegal literal

A fractional payload of a kind of whole numbers is written as a mark, and the mark stands nowhere
else (`Node.render_illegalType`). The text of a node is woven from the texts of its parts and from
brackets, words and operators of its own (`Node.weaves`). So the mark of a part is in the text of
the whole; and where no part writes it, every `<` is followed by a character with which the mark
does not go on, within the same operator, whatever text comes next.
-/

namespace SyntaxForest

open Renderer Numeric Document

/-! ## Texts without the mark -/

/-- Every `<` is followed by a character that is not the second one of the mark. -/
def Sealed : List Char → Prop
  | [] => True
  | c :: t => (c = '<' → ∃ d ∈ t.head?, d ≠ 'i') ∧ Sealed t

theorem Sealed.nil : Sealed [] := trivial

theorem Sealed.append {s t : List Char} (hs : Sealed s) (ht : Sealed t) : Sealed (s ++ t) := by
  induction s with
  | nil => exact ht
  | cons c s ih =>
    refine ⟨?_, ih hs.2⟩
    intro hc
    obtain ⟨d, hd, hne⟩ := hs.1 hc
    refine ⟨d, ?_, hne⟩
    change d ∈ (s ++ t).head?
    rw [List.head?_append, hd]
    rfl

theorem sealed_of_not_mem {t : List Char} (h : '<' ∉ t) : Sealed t := by
  induction t with
  | nil => trivial
  | cons c t ih =>
    rw [List.mem_cons, not_or] at h
    exact ⟨fun hc => absurd hc.symm h.1, ih h.2⟩

theorem sealed_indent (level : Nat) : Sealed (indent level) := by
  rw [indent_eq_replicate]
  exact sealed_of_not_mem (by simp)

theorem Sealed.no_mark {t : List Char} (h : Sealed t) : ¬ illegalType.toList <:+: t := by
  induction t with
  | nil => decide
  | cons c t ih =>
    rw [List.infix_cons_iff, not_or]
    refine ⟨?_, ih h.2⟩
    rintro ⟨rest, hrest⟩
    obtain ⟨rfl, rfl⟩ := List.cons.inj hrest
    obtain ⟨d, hd, hne⟩ := h.1 rfl
    cases hd
    exact hne rfl

/-! ## How a text is woven -/

/-- The text is put together from the texts of the nodes, in order and each inside some number of
blocks, and from texts between them in which the mark does not begin. -/
inductive Weaves : List Char → List Node → Prop
  | nil : Weaves [] []
  | glue {g t : List Char} {ns : List Node} (hg : Sealed g) (h : Weaves t ns) : Weaves (g ++ t) ns
  | part (n : Node) (level : Nat) {t : List Char} {ns : List Node} (h : Weaves t ns) :
      Weaves (n.chars level ++ t) (n :: ns)

namespace Weaves

variable {s t : List Char} {ms ns : List Node}

theorem of_sealed (h : Sealed t) : Weaves t [] := by
  rw [← List.append_nil t]
  exact .glue h .nil

theorem single (n : Node) (level : Nat) : Weaves (n.chars level) [n] := by
  rw [← List.append_nil (n.chars level)]
  exact .part n level .nil

theorem char {c : Char} (hc : c ≠ '<') (h : Weaves t ns) : Weaves (c :: t) ns :=
  .glue (g := [c]) ⟨fun h => absurd h hc, trivial⟩ h

theorem append (hs : Weaves s ms) (ht : Weaves t ns) : Weaves (s ++ t) (ms ++ ns) := by
  induction hs with
  | nil => exact ht
  | glue hg _ ih =>
    rw [List.append_assoc]
    exact .glue hg ih
  | part n level _ ih =>
    rw [List.append_assoc]
    exact .part n level ih

section

variable {separator before after : List Char} {α : Type} {node : α → Node} {chars : α → List Char}

theorem restChars (hseparator : Sealed separator) (hbefore : Sealed before) (hafter : Sealed after)
    (level : Nat) (h : ∀ a, (node a).chars level = chars a) (as : List α) :
    Weaves (Renderer.restChars separator before after (as.map chars)) (as.map node) := by
  induction as with
  | nil => exact .nil
  | cons a as ih =>
    simp only [List.map_cons, Renderer.restChars, ← h a]
    exact .glue hseparator (.glue hbefore (.part _ _ (.glue hafter ih)))

theorem listChars (hseparator : Sealed separator) (hbefore : Sealed before) (hafter : Sealed after)
    (level : Nat) (h : ∀ a, (node a).chars level = chars a) (as : List α) :
    Weaves (Renderer.listChars separator before after (as.map chars)) (as.map node) := by
  cases as with
  | nil => exact .nil
  | cons a as =>
    simp only [List.map_cons, Renderer.listChars, ← h a]
    exact .glue hbefore
      (.part _ _ (.glue hafter (restChars hseparator hbefore hafter level h as)))

end

theorem block (level : Nat) (stats : List Stmt) :
    Weaves (blockChars level (Stmt.texts (level + 1) stats)) (stats.map .stmt) := by
  rw [blockChars, Stmt.texts_eq_map, ← List.append_nil (stats.map Node.stmt)]
  refine .char (by decide) (.char (by decide) (.append ?_ ?_))
  · exact listChars (sealed_of_not_mem (by decide)) (sealed_indent _) .nil (level + 1)
      (by intro _; rfl) stats
  · exact .char (by decide)
      (.glue (sealed_indent level) (.of_sealed (sealed_of_not_mem (by decide))))

/-- Where the texts of all nodes are sealed, so is the text that is woven from them. -/
theorem sealed (h : Weaves t ns) (hns : ∀ n ∈ ns, ∀ level, Sealed (n.chars level)) : Sealed t := by
  induction h with
  | nil => trivial
  | glue hg _ ih => exact hg.append (ih hns)
  | part n level _ ih =>
    rw [List.forall_mem_cons] at hns
    exact (hns.1 level).append (ih hns.2)

theorem exists_inside (h : Weaves t ns) {n : Node} (hn : n ∈ ns) :
    ∃ level, n.chars level <:+: t := by
  induction h with
  | nil => cases hn
  | glue _ _ ih =>
    obtain ⟨level, hlevel⟩ := ih hn
    exact ⟨level, hlevel.trans (List.suffix_append ..).isInfix⟩
  | part m level _ ih =>
    rcases List.mem_cons.mp hn with rfl | hn
    · exact ⟨level, (List.prefix_append ..).isInfix⟩
    · obtain ⟨level, hlevel⟩ := ih hn
      exact ⟨level, hlevel.trans (List.suffix_append ..).isInfix⟩

end Weaves

/-! ## Nodes -/

theorem BinaryOp.sealed_symbol (op : BinaryOp) : Sealed (' ' :: (op.symbol.toList ++ [' '])) := by
  cases op <;> simp [BinaryOp.symbol, Sealed]

theorem AssignOp.sealed_symbol (op : AssignOp) : Sealed (' ' :: (op.symbol.toList ++ [' '])) := by
  cases op <;> simp [AssignOp.symbol, Sealed]

theorem UnaryOp.sealed_symbol (op : UnaryOp) : Sealed op.symbol.toList := by
  cases op <;> simp [UnaryOp.symbol, Sealed]

theorem Primitive.sealed_keyword (kind : Primitive) : Sealed kind.keyword.toList := by
  cases kind <;> simp [Primitive.keyword, Sealed]

/-- An operator stands between spaces, and so do two operands. -/
theorem weaves_operands {symbol : List Char} (h : Sealed (' ' :: (symbol ++ [' '])))
    (left right : Expr) :
    Weaves ('(' :: (left.chars ++ ' ' :: (symbol ++ ' ' :: (right.chars ++ [')']))))
      [.expr left, .expr right] := by
  have hmiddle : ' ' :: (symbol ++ ' ' :: (right.chars ++ [')'])) =
      (' ' :: (symbol ++ [' '])) ++ (right.chars ++ [')']) := by simp
  rw [hmiddle]
  exact .char (by decide) (.part (.expr left) 0 (.glue h (.part (.expr right) 0
    (.char (by decide) .nil))))

theorem weaves_exprs {separator before after : List Char} (hseparator : Sealed separator)
    (hbefore : Sealed before) (hafter : Sealed after) (es : List Expr) :
    Weaves (listChars separator before after (Expr.texts es)) (es.map .expr) := by
  rw [Expr.texts_eq_map]
  exact .listChars hseparator hbefore hafter 0 (by intro _; rfl) es

theorem Expr.weaves (e : Expr) :
    Weaves e.chars e.children ∨ (∃ id, e = .ident id) ∨ ∃ c, e = .const c := by
  cases e with
  | ident id => exact .inr (.inl ⟨id, rfl⟩)
  | const c => exact .inr (.inr ⟨c, rfl⟩)
  | call func args =>
    have hargs := weaves_exprs (sealed_of_not_mem (t := [',', ' ']) (by decide)) .nil .nil args
    have hclose := hargs.append (.char (c := ')') (by decide) .nil)
    rw [List.append_nil] at hclose
    rw [Expr.chars, Expr.children]
    exact .inl (.part (.expr func) 0 (.char (by decide) hclose))
  | index var idx =>
    rw [Expr.chars, Expr.children]
    exact .inl (.part (.expr var) 0 (.char (by decide) (.part (.expr idx) 0
      (.char (by decide) .nil))))
  | access var field =>
    rw [Expr.chars, Expr.children]
    exact .inl (.char (by decide) (.part (.expr var) 0 (.char (by decide) (.part (.expr field) 0
      (.char (by decide) .nil)))))
  | cast ty e =>
    rw [Expr.chars, Expr.children]
    exact .inl (.char (by decide) (.part (.type ty) 0 (.char (by decide) (.part (.expr e) 0
      (.char (by decide) .nil)))))
  | unary op e =>
    rw [Expr.chars, Expr.children]
    left
    split
    · exact .char (by decide) (.part (.expr e) 0 (.glue op.sealed_symbol (.char (by decide) .nil)))
    · exact .char (by decide) (.glue op.sealed_symbol (.part (.expr e) 0 (.char (by decide) .nil)))
  | binary op left right =>
    rw [Expr.chars, Expr.children]
    exact .inl (weaves_operands op.sealed_symbol left right)
  | assign op lval rval =>
    rw [Expr.chars, Expr.children]
    exact .inl (weaves_operands op.sealed_symbol lval rval)

theorem Ty.weaves (ty : Ty) : Weaves ty.chars ty.children := by
  obtain ⟨base, dims⟩ := ty
  have hdims : Weaves (listChars [] ['['] [']'] (Expr.dimsTexts dims))
      ((dims.getD []).map .expr) := by
    cases dims with
    | none => exact .nil
    | some es =>
      exact weaves_exprs .nil (sealed_of_not_mem (by decide)) (sealed_of_not_mem (by decide)) es
  rw [Ty.chars, Ty.children]
  cases base with
  | primitive kind => exact .append (.of_sealed kind.sealed_keyword) hdims
  | reference id => exact .append (.single (.name id) 0) hdims

theorem Declarator.weaves (d : Declarator) : Weaves d.chars (Node.declarator d).children := by
  obtain ⟨id, init⟩ := d
  rw [Declarator.chars, Node.children]
  cases init with
  | none => exact .single (.name id) 0
  | some e =>
    exact .part (.name id) 0 (.char (by decide) (.char (by decide) (.char (by decide)
      (.single (.expr e) 0))))

theorem Stmt.weaves (s : Stmt) (level : Nat) : Weaves (s.chars level) s.children := by
  cases s with
  | brk =>
    rw [Stmt.chars, Stmt.children]
    exact .of_sealed (sealed_of_not_mem (by decide))
  | cont =>
    rw [Stmt.chars, Stmt.children]
    exact .of_sealed (sealed_of_not_mem (by decide))
  | ret value =>
    rw [Stmt.chars, Stmt.children]
    refine .glue (sealed_of_not_mem (by decide)) ?_
    cases value with
    | none => exact .nil
    | some e => exact .char (by decide) (.single (.expr e) 0)
  | block stats =>
    rw [Stmt.chars, Stmt.children]
    exact .block level stats
  | expr e => exact .single (.expr e) 0
  | decl d =>
    rw [Stmt.chars, Stmt.children, Declaration.chars]
    exact .part (.type d.ty) 0 (.char (by decide)
      (.listChars (sealed_of_not_mem (by decide)) .nil .nil 0 (by intro _; rfl) d.declarators))
  | ite condition thenBranch elseBranch =>
    rw [Stmt.chars, Stmt.children]
    refine .glue (sealed_of_not_mem (by decide)) (.char (by decide) (.char (by decide)
      (.part (.expr condition) 0 (.char (by decide) (.char (by decide)
        (.part (.stmt thenBranch) level ?_))))))
    cases elseBranch with
    | none => exact .nil
    | some s =>
      rw [Stmt.elseChars]
      exact .char (by decide) (.glue (sealed_of_not_mem (by decide)) (.char (by decide)
        (.single (.stmt s) level)))
  | loop condition body =>
    rw [Stmt.chars, Stmt.children]
    exact .glue (sealed_of_not_mem (by decide)) (.char (by decide) (.char (by decide)
      (.part (.expr condition) 0 (.char (by decide) (.char (by decide)
        (.single (.stmt body) level))))))

/-- The text of a node is woven from the texts of its children, unless it is a name or a
constant. -/
theorem Node.weaves (n : Node) (level : Nat) :
    Weaves (n.chars level) n.children ∨ (∃ id, n = .name id) ∨ ∃ c, n = .expr (.const c) := by
  cases n with
  | expr e =>
    rcases e.weaves with h | ⟨id, rfl⟩ | ⟨c, rfl⟩
    · exact .inl h
    · exact .inr (.inl ⟨id, rfl⟩)
    · exact .inr (.inr ⟨c, rfl⟩)
  | stmt s => exact .inl (s.weaves level)
  | type ty => exact .inl ty.weaves
  | declarator d => exact .inl d.weaves
  | parameter p =>
    exact .inl (.part (.type p.ty) 0 (.char (by decide) (.single (.name p.id) 0)))
  | header h =>
    have hparams : Weaves (listChars [',', ' '] [] [] (h.params.map Parameter.chars))
        (h.params.map .parameter) :=
      .listChars (sealed_of_not_mem (by decide)) .nil .nil 0 (by intro _; rfl) h.params
    have hclose := hparams.append (.char (c := ')') (by decide) .nil)
    rw [List.append_nil] at hclose
    exact .inl (.part (.type h.ty) 0 (.char (by decide) (.part (.name h.id) 0
      (.char (by decide) hclose))))
  | function f =>
    exact .inl (.part (.header f.header) 0 (.char (by decide) (.single (.block f.body) level)))
  | struct s =>
    have hfields : Weaves (listChars ['\n'] (indent 1) [] (s.fields.map Declaration.chars))
        (s.fields.map .declaration) :=
      .listChars (sealed_of_not_mem (by decide)) (sealed_indent 1) .nil 0 (by intro _; rfl) s.fields
    have hclose := hfields.append (.of_sealed (t := ['\n', '\x7d']) (sealed_of_not_mem (by decide)))
    rw [List.append_nil] at hclose
    exact .inl (.glue (sealed_of_not_mem (by decide)) (.char (by decide) (.part (.name s.id) 0
      (.char (by decide) (.char (by decide) (.char (by decide) hclose))))))

/-- The text of every part of a node stands in the text of the node. -/
theorem Node.exists_inside {m n : Node} (h : m ∈ n.parts) (level : Nat) :
    ∃ level', m.chars level' <:+: n.chars level := by
  induction n using Node.induction generalizing level with
  | step n ih =>
    rw [Node.parts_eq, List.mem_cons, List.mem_flatMap] at h
    rcases h with rfl | ⟨child, hchild, hm⟩
    · exact ⟨level, List.infix_rfl⟩
    · rcases n.weaves level with hweaves | ⟨id, rfl⟩ | ⟨c, rfl⟩
      · obtain ⟨inner, hinner⟩ := hweaves.exists_inside hchild
        obtain ⟨level', hm⟩ := ih child hchild hm inner
        exact ⟨level', hm.trans hinner⟩
      · cases hchild
      · cases hchild

/-! ## Constants -/

theorem not_mem_digits {ds : List Char} (h : AllDigits ds) : '<' ∉ ds :=
  fun hmem => nomatch h _ hmem

theorem DecimalText.not_mem_angle {t : List Char} (h : DecimalText t) : '<' ∉ t := by
  obtain ⟨sign, whole, fraction, hsign, -, hwhole, hfraction, rfl⟩ := h
  have hsign : '<' ∉ sign := by rcases hsign with rfl | rfl <;> decide
  have hfraction : '<' ∉ fraction := by
    rcases hfraction with rfl | ⟨ds, -, hds, rfl⟩
    · exact List.not_mem_nil
    · simp [not_mem_digits hds]
  simp [hsign, not_mem_digits hwhole, hfraction]

theorem not_mem_angle_sourceLayout {F : Format} (x : Binary F) :
    '<' ∉ (sourceLayout.text x).toList := by
  cases hx : x.isFinite with
  | true => exact (decimalText_sourceLayout hx).not_mem_angle
  | false =>
    rw [Layout.text, hx]
    split
    · decide
    · rw [if_pos (show (!false) = true from rfl)]
      cases x.negative <;> decide

namespace Constant

variable {c : Constant}

/-- A fractional payload of a kind of whole numbers. -/
def IsUnreadable (c : Constant) : Prop :=
  c.kind ∈ [Primitive.byte, .short, .int, .long] ∧ ∃ x, c.value = .float x

theorem literal_of_isUnreadable (h : c.IsUnreadable) : c.literal = illegalType := by
  obtain ⟨hkind, x, hvalue⟩ := h
  obtain ⟨kind, value⟩ := c
  obtain rfl : value = .float x := hvalue
  cases kind with
  | byte | short | int | long => rfl
  | bool | float | double => simp at hkind

/-- A constant that is not a truth value and can be read has digits. -/
theorem exists_digits (hkind : c.kind ≠ .bool) (h : ¬ c.IsUnreadable) :
    ∃ digits, c.value.digits? c.kind = some digits ∧ '<' ∉ digits.toList := by
  obtain ⟨kind, value⟩ := c
  cases value with
  | int v => exact ⟨_, rfl, (decimalText_intText _).not_mem_angle⟩
  | float x =>
    cases kind with
    | bool => exact absurd rfl hkind
    | byte | short | int | long => exact absurd ⟨by simp, x, rfl⟩ h
    | float => exact ⟨_, rfl, not_mem_angle_sourceLayout _⟩
    | double => exact ⟨_, rfl, not_mem_angle_sourceLayout _⟩

theorem sealed_literal (h : ¬ c.IsUnreadable) : Sealed c.literal.toList := by
  apply sealed_of_not_mem
  by_cases hkind : c.kind = .bool
  · rw [literal_of_bool hkind]
    cases c.value.isZero <;> decide
  · obtain ⟨digits, hdigits, hmem⟩ := exists_digits hkind h
    obtain ⟨letter, hletter, hliteral⟩ := literal_of_digits hkind hdigits
    have hangle : '<' ≠ letter := by
      rintro rfl
      cases hc : c.kind <;> rw [hc] at hletter <;> revert hletter <;> decide
    rw [hliteral, String.toList_append, String.toList_singleton]
    simp [hmem, hangle]

theorem not_isUnreadable_of_validate (h : c.validate = .ok ()) : ¬ c.IsUnreadable := by
  rintro ⟨hkind, x, hvalue⟩
  obtain ⟨kind, value⟩ := c
  obtain rfl : value = .float x := hvalue
  rcases (validate_float_payload h).1 with rfl | rfl <;> simp at hkind

end Constant

/-! ## Trees -/

/-- Asks of every name that it has no `<`. -/
def Node.hasNoAngle : Node → Bool
  | .expr (.ident id) => !id.toList.contains '<'
  | _ => true

theorem Node.sealed {n : Node} (hnames : n.Everywhere (·.hasNoAngle = true))
    (hconstants : ∀ c, .expr (.const c) ∈ n.parts → ¬ c.IsUnreadable) (level : Nat) :
    Sealed (n.chars level) := by
  induction n using Node.induction generalizing level with
  | step n ih =>
    rcases n.weaves level with hweaves | ⟨id, rfl⟩ | ⟨c, rfl⟩
    · refine hweaves.sealed fun m hm => ih m hm (hnames.child hm) fun c hc => ?_
      refine hconstants c ?_
      rw [Node.parts_eq, List.mem_cons, List.mem_flatMap]
      exact .inr ⟨m, hm, hc⟩
    · apply sealed_of_not_mem
      simpa [Node.hasNoAngle, Node.chars, Expr.chars] using hnames.self
    · refine Constant.sealed_literal (hconstants c ?_)
      rw [Node.parts_eq]
      exact List.mem_cons_self

/-- The text of a tree whose names have no `<` has the mark in it exactly when some constant of the
tree holds a fraction that its kind cannot read. So no tree that is read from a document is written
with it; and where digits are written, they are followed by a letter and never by the mark. -/
theorem Node.render_illegalType :
    (∀ n : Node, n.Everywhere (·.hasNoAngle = true) →
      (illegalType.toList <:+: n.render.toList ↔
        ∃ c, .expr (.const c) ∈ n.parts ∧ c.IsUnreadable)) ∧
    (∀ source forest, Forest.parse source = .ok forest →
      ∀ n ∈ forest, n.Everywhere (·.hasNoAngle = true) →
        ¬ illegalType.toList <:+: n.render.toList) ∧
    ∀ (c : Constant) (digits : String), c.kind ≠ .bool → c.value.digits? c.kind = some digits →
      ∃ letter, c.kind.suffix? = some letter ∧ c.literal = digits ++ letter := by
  have hmark (n : Node) (hnames : n.Everywhere (·.hasNoAngle = true)) :
      illegalType.toList <:+: n.render.toList ↔
        ∃ c, .expr (.const c) ∈ n.parts ∧ c.IsUnreadable := by
    rw [Node.render_toList]
    constructor
    · intro hinside
      by_contra hnone
      have hconstants (c : Constant) (hc : .expr (.const c) ∈ n.parts) : ¬ c.IsUnreadable :=
        fun h => hnone ⟨c, hc, h⟩
      exact (Node.sealed hnames hconstants 0).no_mark hinside
    · rintro ⟨c, hc, h⟩
      obtain ⟨level, hinside⟩ := Node.exists_inside hc 0
      rw [← Constant.literal_of_isUnreadable h]
      exact hinside
  refine ⟨hmark, ?_, ?_⟩
  · intro source forest hparse n hn hnames hinside
    obtain ⟨c, hc, h⟩ := (hmark n hnames).mp hinside
    have hcheck := checkEach_eq_ok.mp (Forest.parse_eq_ok.mp hparse).2 n hn
    exact Constant.not_isUnreadable_of_validate
      ((Node.check_eq_ok_iff_everywhere n).mp hcheck _ hc) h
  · intro c digits hkind hdigits
    obtain ⟨letter, hletter, hliteral⟩ := Constant.literal_of_digits hkind hdigits
    exact ⟨_, hletter, hliteral⟩

/-- A comparison with a fraction behind it: as a `long` the fraction is written as the mark, right
after the operator that begins like it, and as a `double` it is written out. -/
theorem Node.render_illegalType_comparison :
    let half : Double := .ofBits .double 0x3fe0000000000000
    let compared (kind : Primitive) : Node :=
      .expr (.binary .less (.ident "a") (.const ⟨kind, .float half⟩))
    illegalType.toList <:+: (compared .long).render.toList ∧
    ¬ illegalType.toList <:+: (compared .double).render.toList ∧
    ∃ letter, Constant.literal ⟨.double, .float half⟩ = sourceLayout.text half ++ letter := by
  intro half compared
  have hrecovers : ∀ x ∈ Forest.fractions [compared .double], Document.Recovers x := by
    have hfractions : Forest.fractions [compared .double] = [half] := by decide +kernel
    have hhalf : Document.Recovers half := by decide +kernel
    simp [hfractions, hhalf]
  have hparse : Forest.parse (Forest.dump [compared .double]) = .ok [compared .double] :=
    Forest.parse_eq_ok.mpr ⟨Forest.decode_dump_eq_ok (by decide +kernel) hrecovers, rfl⟩
  refine ⟨?_, ?_, ?_⟩
  · refine (Node.render_illegalType.1 _ (by decide +kernel)).mpr ⟨⟨.long, .float half⟩, ?_, ?_⟩
    · exact List.mem_cons_of_mem _ (List.mem_cons_of_mem _ List.mem_cons_self)
    · exact ⟨by decide, half, rfl⟩
  · exact Node.render_illegalType.2.1 _ _ hparse _ (List.mem_singleton.mpr rfl) (by decide +kernel)
  · obtain ⟨letter, -, hliteral⟩ :=
      Node.render_illegalType.2.2 ⟨.double, .float half⟩ _ (by decide) rfl
    exact ⟨letter, hliteral⟩

end SyntaxForest
