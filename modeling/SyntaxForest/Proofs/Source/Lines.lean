import SyntaxForest.Proofs.Document.Numbers
import SyntaxForest.Proofs.Source.Text
import SyntaxForest.Proofs.Tree.Parts

/-!
# Lines and their indentation

Every line of a rendered node that is not empty is indented by one step for each brace that is open
where it begins; a line that begins with a closing brace is indented as the line with the opening
one (`Node.render_indented`). This needs names that cannot be mistaken for layout.

The argument reads a text from left to right and keeps the number of open braces. `Steady` says that
every line that begins inside the text is indented by that number; it passes from parts to their
concatenation, as long as no part ends in a line break.
-/

namespace SyntaxForest

open Renderer Document Numeric

/-! ## Texts without layout -/

/-- Characters that end a line, or that open or close a block. -/
def isLayout (c : Char) : Bool := c == '\n' || c == '\x7b' || c == '\x7d'

/-- A text that stays on its line and opens no block. -/
def Inline (t : List Char) : Prop := ∀ c ∈ t, isLayout c = false

-- The instance goes through the text and not through all characters.
instance : DecidablePred Inline := fun t =>
  decidable_of_iff (t.all (!isLayout ·) = true) (by simp [Inline])

@[simp] theorem inline_nil : Inline [] := by simp [Inline]

@[simp] theorem inline_cons {c : Char} {t : List Char} :
    Inline (c :: t) ↔ isLayout c = false ∧ Inline t := by
  simp [Inline]

@[simp] theorem inline_append {a b : List Char} : Inline (a ++ b) ↔ Inline a ∧ Inline b :=
  List.forall_mem_append

theorem inline_restChars {separator before after : List Char} {ts : List (List Char)}
    (hseparator : Inline separator) (hbefore : Inline before) (hafter : Inline after)
    (hts : ∀ t ∈ ts, Inline t) : Inline (restChars separator before after ts) := by
  induction ts with
  | nil => simp [restChars]
  | cons t ts ih =>
    rw [List.forall_mem_cons] at hts
    simp [restChars, ih hts.2, *]

theorem inline_listChars {separator before after : List Char} {ts : List (List Char)}
    (hseparator : Inline separator) (hbefore : Inline before) (hafter : Inline after)
    (hts : ∀ t ∈ ts, Inline t) : Inline (listChars separator before after ts) := by
  cases ts with
  | nil => simp [listChars]
  | cons t ts =>
    rw [List.forall_mem_cons] at hts
    simp [listChars, inline_restChars hseparator hbefore hafter hts.2, *]

/-- A text that stays on its line and does not begin with a space. -/
structure Solid (t : List Char) : Prop where
  begins : ∃ c s, t = c :: s ∧ c ≠ ' '
  inline : Inline t

instance : DecidablePred Solid := fun t =>
  decidable_of_iff (t.head?.any (· != ' ') = true ∧ Inline t) <| by
    constructor
    · rintro ⟨hhead, hinline⟩
      obtain ⟨c, hhead, hc⟩ := (Option.any_eq_true _ _).mp hhead
      obtain ⟨s, rfl⟩ := List.head?_eq_some_iff.mp hhead
      exact ⟨⟨c, s, rfl, bne_iff_ne.mp hc⟩, hinline⟩
    · rintro ⟨⟨c, s, rfl, hc⟩, hinline⟩
      exact ⟨bne_iff_ne.mpr hc, hinline⟩

theorem Solid.append {a b : List Char} (ha : Solid a) (hb : Inline b) : Solid (a ++ b) := by
  obtain ⟨c, s, rfl, hc⟩ := ha.begins
  exact ⟨⟨c, s ++ b, rfl, hc⟩, inline_append.mpr ⟨ha.inline, hb⟩⟩

theorem solid_cons {c : Char} {t : List Char} (hc : c ≠ ' ') (ht : Inline (c :: t)) :
    Solid (c :: t) := ⟨⟨c, t, rfl, hc⟩, ht⟩

/-! ## Literals -/

theorem isLayout_of_isDigit {c : Char} (h : c.isDigit = true) : isLayout c = false := by
  rw [Bool.eq_false_iff]
  intro hc
  simp only [isLayout, Bool.or_eq_true, beq_iff_eq] at hc
  rcases hc with (rfl | rfl) | rfl <;> cases h

theorem ne_space_of_isDigit {c : Char} (h : c.isDigit = true) : c ≠ ' ' := by
  rintro rfl
  cases h

theorem AllDigits.inline {ds : List Char} (h : AllDigits ds) : Inline ds :=
  fun c hc => isLayout_of_isDigit (h c hc)

theorem NumberText.solid {t : List Char} (h : NumberText t) : Solid t := by
  obtain ⟨c, s, hcons, hc⟩ := h.cons
  refine ⟨⟨c, s, hcons, ne_space_of_isDigit hc⟩, ?_⟩
  obtain ⟨whole, fraction, exponent, -, hwhole, hfraction, hexponent, rfl⟩ := h
  have hf : Inline fraction := by
    rcases hfraction with rfl | ⟨ds, -, hds, rfl⟩
    · exact inline_nil
    · exact inline_cons.mpr ⟨by decide, AllDigits.inline hds⟩
  have he : Inline exponent := by
    rcases hexponent with rfl | ⟨sign, ds, hsign, -, hds, rfl⟩
    · exact inline_nil
    · have : isLayout sign = false := by rcases hsign with rfl | rfl <;> decide
      simp [this, AllDigits.inline hds]
      decide
  simp [AllDigits.inline hwhole, hf, he]

theorem solid_intText (v : Int) : Solid (intText v).toList := by
  have natural (n : Nat) : Solid (natText n).toList := by
    obtain ⟨d, ds, hcons, hd⟩ := natText_cons n
    exact ⟨⟨d, ds, hcons, ne_space_of_isDigit hd⟩, AllDigits.inline (allDigits_natText n)⟩
  cases v with
  | ofNat n => exact natural n
  | negSucc n =>
    rw [intText_negSucc]
    exact solid_cons (by decide) (inline_cons.mpr ⟨by decide, (natural (n + 1)).inline⟩)

theorem solid_sourceLayout {F : Format} (x : Binary F) : Solid (sourceLayout.text x).toList := by
  have hmagnitude : Solid (sourceLayout.magnitude x).toList :=
    NumberText.solid (numberText_magnitude sourceLayout (.inl rfl) x)
  rw [Layout.text]
  split
  · decide +kernel
  split
  · cases x.negative <;> decide +kernel
  split
  · rw [String.toList_append]
    exact solid_cons (by decide) (inline_cons.mpr ⟨by decide, hmagnitude.inline⟩)
  · exact hmagnitude

theorem Primitive.solid_keyword (kind : Primitive) : Solid kind.keyword.toList := by
  cases kind <;> decide +kernel

theorem Constant.solid_literal (c : Constant) : Solid c.literal.toList := by
  have hsuffix (kind : Primitive) : Inline (kind.suffix?.getD illegalType).toList :=
    Solid.inline (by cases kind <;> decide +kernel)
  have hdigits {kind : Primitive} {digits : String} (h : c.value.digits? kind = some digits) :
      Solid digits.toList := by
    cases hvalue : c.value with
    | int v =>
      rw [hvalue, Scalar.digits?, Option.some.injEq] at h
      exact h ▸ solid_intText v.toInt
    | float x =>
      rw [hvalue] at h
      cases kind <;> simp only [Scalar.digits?, Option.some.injEq, reduceCtorEq] at h
      · exact h ▸ solid_sourceLayout _
      · exact h ▸ solid_sourceLayout _
  rw [Constant.literal]
  split
  · split <;> decide +kernel
  · split
    · next digits h =>
      rw [String.toList_append]
      exact (hdigits h).append (hsuffix _)
    · decide +kernel

/-! ## Names that are no layout -/

/-- A name that cannot be mistaken for layout: it is not empty and has no space, line break or
brace. -/
def isCompact (id : String) : Bool :=
  id.toList != [] && id.toList.all fun c => c != ' ' && !isLayout c

/-- Asks of every name that it is compact. -/
def Node.hasCompactName : Node → Bool
  | .expr (.ident id) => isCompact id
  | _ => true

/-- All names in the tree are compact. -/
abbrev Node.Compact (n : Node) : Prop := n.Everywhere (·.hasCompactName = true)

theorem solid_of_isCompact {id : String} (h : isCompact id = true) : Solid id.toList := by
  simp only [isCompact, Bool.and_eq_true, bne_iff_ne, List.all_eq_true, Bool.not_eq_true'] at h
  obtain ⟨hne, hall⟩ := h
  refine ⟨?_, fun c hc => (hall c hc).2⟩
  cases hid : id.toList with
  | nil => exact absurd hid hne
  | cons c s => exact ⟨c, s, rfl, (hall c (by simp [hid])).1⟩

/-- A name among the parts of a compact tree. -/
theorem Node.Compact.solid_name {n : Node} {id : String} (h : n.Compact)
    (hid : .name id ∈ n.children) : Solid id.toList :=
  solid_of_isCompact (h.child hid).self

/-! ## Expressions and types stay on their line -/

theorem UnaryOp.solid_symbol (op : UnaryOp) : Solid op.symbol.toList := by
  cases op <;> decide +kernel

theorem BinaryOp.solid_symbol (op : BinaryOp) : Solid op.symbol.toList := by
  cases op <;> decide +kernel

theorem AssignOp.solid_symbol (op : AssignOp) : Solid op.symbol.toList := by
  cases op <;> decide +kernel

mutual

theorem Expr.solid (e : Expr) (h : (Node.expr e).Compact) : Solid e.chars := by
  match e with
  | .ident id => exact solid_of_isCompact h.self
  | .const c => exact c.solid_literal
  | .call func args =>
    have hfunc := func.solid (h.child (by simp [Node.children, Expr.children]))
    have hargs : Inline (listChars [',', ' '] [] [] (Expr.texts args)) :=
      inline_listChars (by decide) inline_nil inline_nil
        (Expr.inline_texts args fun e he => h.child (by simp [Node.children, Expr.children, he]))
    refine hfunc.append ?_
    simp [hargs, isLayout]
  | .index var idx =>
    have hvar := var.solid (h.child (by simp [Node.children, Expr.children]))
    have hidx := idx.solid (h.child (by simp [Node.children, Expr.children]))
    refine hvar.append ?_
    simp [hidx.inline, isLayout]
  | .access var field =>
    have hvar := var.solid (h.child (by simp [Node.children, Expr.children]))
    have hfield := field.solid (h.child (by simp [Node.children, Expr.children]))
    refine solid_cons (by decide) ?_
    simp [hvar.inline, hfield.inline, isLayout]
  | .cast ty e =>
    have hty := ty.solid (h.child (by simp [Node.children, Expr.children]))
    have he := e.solid (h.child (by simp [Node.children, Expr.children]))
    refine solid_cons (by decide) ?_
    simp [hty.inline, he.inline, isLayout]
  | .unary op e =>
    have he := e.solid (h.child (by simp [Node.children, Expr.children]))
    rw [Expr.chars]
    split <;>
    · refine solid_cons (by decide) ?_
      simp [he.inline, op.solid_symbol.inline, isLayout]
  | .binary op left right =>
    have hleft := left.solid (h.child (by simp [Node.children, Expr.children]))
    have hright := right.solid (h.child (by simp [Node.children, Expr.children]))
    refine solid_cons (by decide) ?_
    simp [hleft.inline, hright.inline, op.solid_symbol.inline, isLayout]
  | .assign op lval rval =>
    have hlval := lval.solid (h.child (by simp [Node.children, Expr.children]))
    have hrval := rval.solid (h.child (by simp [Node.children, Expr.children]))
    refine solid_cons (by decide) ?_
    simp [hlval.inline, hrval.inline, op.solid_symbol.inline, isLayout]

theorem Ty.solid (ty : Ty) (h : (Node.type ty).Compact) : Solid ty.chars := by
  match ty with
  | ⟨base, dims⟩ =>
    have hbase : Solid base.chars := by
      cases base with
      | primitive kind => exact kind.solid_keyword
      | reference id => exact h.solid_name (by simp [Node.children, Ty.children])
    refine hbase.append (inline_listChars (by simp) (by decide) (by decide) ?_)
    match dims with
    | none => simp [Expr.dimsTexts]
    | some es =>
      exact Expr.inline_texts es fun e he => h.child (by simp [Node.children, Ty.children, he])

theorem Expr.inline_texts (es : List Expr) (h : ∀ e ∈ es, (Node.expr e).Compact) :
    ∀ t ∈ Expr.texts es, Inline t := by
  match es with
  | [] => simp [Expr.texts]
  | e :: es =>
    rw [List.forall_mem_cons] at h
    rw [Expr.texts, List.forall_mem_cons]
    exact ⟨(e.solid h.1).inline, Expr.inline_texts es h.2⟩

end

theorem Declarator.solid (d : Declarator) (h : (Node.declarator d).Compact) : Solid d.chars := by
  obtain ⟨id, init⟩ := d
  have hid : Solid id.toList := h.solid_name (by simp [Node.children])
  cases init with
  | none => exact hid
  | some e =>
    have he := e.solid (h.child (by simp [Node.children]))
    refine hid.append ?_
    simp [he.inline, isLayout]

theorem Declaration.solid (d : Declaration) (h : (Node.declaration d).Compact) :
    Solid d.chars := by
  have hty := d.ty.solid (h.child (by simp [Node.children, Stmt.children]))
  have hdeclarators : ∀ t ∈ d.declarators.map Declarator.chars, Inline t := by
    rw [List.forall_mem_map]
    exact fun x hx => (x.solid (h.child (by simp [Node.children, Stmt.children, hx]))).inline
  refine hty.append (inline_cons.mpr ⟨by decide, ?_⟩)
  exact inline_listChars (by decide) inline_nil inline_nil hdeclarators

theorem Parameter.solid (p : Parameter) (h : (Node.parameter p).Compact) : Solid p.chars := by
  have hty := p.ty.solid (h.child (by simp [Node.children]))
  have hid : Solid p.id.toList := h.solid_name (by simp [Node.children])
  refine hty.append ?_
  simp [hid.inline, isLayout]

theorem Header.solid (d : Header) (h : (Node.header d).Compact) : Solid d.chars := by
  have hty := d.ty.solid (h.child (by simp [Node.children]))
  have hid : Solid d.id.toList := h.solid_name (by simp [Node.children])
  have hparams : ∀ t ∈ d.params.map Parameter.chars, Inline t := by
    rw [List.forall_mem_map]
    exact fun x hx => (x.solid (h.child (by simp [Node.children, hx]))).inline
  have hlist : Inline (listChars [',', ' '] [] [] (d.params.map Parameter.chars)) :=
    inline_listChars (by decide) inline_nil inline_nil hparams
  refine hty.append ?_
  simp [hid.inline, hlist, isLayout]

/-! ## Counting braces -/

/-- What a character adds to the number of open braces. -/
def braceWeight (c : Char) : Int := if c = '\x7b' then 1 else if c = '\x7d' then -1 else 0

/-- How many more braces a text opens than it closes. -/
def netBraces : List Char → Int
  | [] => 0
  | c :: t => braceWeight c + netBraces t

theorem netBraces_append (a b : List Char) : netBraces (a ++ b) = netBraces a + netBraces b := by
  induction a with
  | nil => simp [netBraces]
  | cons c a ih => simp [netBraces, ih, Int.add_assoc]

theorem netBraces_eq_count (t : List Char) :
    netBraces t = (t.count '\x7b' : Int) - t.count '\x7d' := by
  induction t with
  | nil => rfl
  | cons c t ih =>
    simp only [netBraces, ih, braceWeight, List.count_cons, beq_iff_eq]
    split
    · next h =>
      subst h
      simp
      omega
    · split <;> push_cast <;> omega

theorem braceWeight_of_not_isLayout {c : Char} (h : isLayout c = false) : braceWeight c = 0 := by
  simp only [isLayout, Bool.or_eq_false_iff, beq_eq_false_iff_ne] at h
  simp [braceWeight, h.1.2, h.2]

theorem Inline.netBraces {t : List Char} (h : Inline t) : netBraces t = 0 := by
  induction t with
  | nil => rfl
  | cons c t ih =>
    rw [inline_cons] at h
    rw [SyntaxForest.netBraces, braceWeight_of_not_isLayout h.1, ih h.2]
    rfl

/-! ## Steady texts -/

/-- A line is empty, or indented by one step for every open brace; a brace that closes a block
stands one step further out. -/
def BeginsLine (depth : Int) (t : List Char) : Prop :=
  (∃ s, t = '\n' :: s) ∨
    ∃ (steps : Nat) (c : Char) (s : List Char), t = List.replicate (4 * steps) ' ' ++ c :: s ∧
      c ≠ ' ' ∧ c ≠ '\n' ∧ depth = steps + if c = '\x7d' then 1 else 0

theorem BeginsLine.append {depth : Int} {t : List Char} (h : BeginsLine depth t) (r : List Char) :
    BeginsLine depth (t ++ r) := by
  rcases h with ⟨s, rfl⟩ | ⟨steps, c, s, rfl, hc⟩
  · exact .inl ⟨s ++ r, rfl⟩
  · exact .inr ⟨steps, c, s ++ r, by simp, hc⟩

/-- Every line that begins inside the text is indented as it should be, if as many braces are open
in front of the text as `depth` says. -/
def Steady (depth : Int) : List Char → Prop
  | [] => True
  | c :: t => (c = '\n' → BeginsLine depth t) ∧ Steady (depth + braceWeight c) t

theorem Inline.steady {t : List Char} (h : Inline t) (depth : Int) : Steady depth t := by
  induction t with
  | nil => trivial
  | cons c t ih =>
    rw [inline_cons] at h
    refine ⟨?_, ?_⟩
    · rintro rfl
      cases h.1
    · rw [braceWeight_of_not_isLayout h.1, Int.add_zero]
      exact ih h.2

theorem Steady.append {depth : Int} {a b : List Char} (ha : Steady depth a)
    (hb : Steady (depth + netBraces a) b) : Steady depth (a ++ b) := by
  induction a generalizing depth with
  | nil => simpa [netBraces] using hb
  | cons c a ih =>
    refine ⟨fun hc => (ha.1 hc).append b, ih ha.2 ?_⟩
    rwa [Int.add_assoc]

/-- What stands behind a line break inside a steady text. -/
theorem Steady.beginsLine {depth : Int} {a b : List Char} (h : Steady depth (a ++ '\n' :: b)) :
    BeginsLine (depth + netBraces a) b := by
  induction a generalizing depth with
  | nil => simpa [netBraces] using h.1 rfl
  | cons c a ih =>
    rw [netBraces, ← Int.add_assoc]
    exact ih h.2

/-- A text that can be written where `level` braces are open: it closes all that it opens, and
begins with a character that is neither layout nor a space, or with an opening brace. -/
structure Fits (level : Nat) (t : List Char) : Prop where
  begins : ∃ c s, t = c :: s ∧ c ≠ ' ' ∧ c ≠ '\n' ∧ c ≠ '\x7d'
  net : netBraces t = 0
  steady : Steady level t

theorem Fits.append {level : Nat} {a b : List Char} (ha : Fits level a) (hb : netBraces b = 0)
    (hsteady : Steady level b) : Fits level (a ++ b) where
  begins := by
    obtain ⟨c, s, rfl, hc⟩ := ha.begins
    exact ⟨c, s ++ b, rfl, hc⟩
  net := by rw [netBraces_append, ha.net, hb, Int.add_zero]
  steady := ha.steady.append (by rwa [ha.net, Int.add_zero])

theorem Solid.fits {t : List Char} (h : Solid t) (level : Nat) : Fits level t where
  begins := by
    obtain ⟨c, s, rfl, hc⟩ := h.begins
    have hlayout := (inline_cons.mp h.inline).1
    refine ⟨c, s, rfl, hc, ?_, ?_⟩ <;>
    · rintro rfl
      cases hlayout
  net := h.inline.netBraces
  steady := h.inline.steady level

/-- A statement behind something on the same line. -/
theorem Fits.after {level : Nat} {a b : List Char} (hb : Fits level b) (ha : Solid a) :
    Fits level (a ++ b) :=
  (ha.fits level).append hb.net hb.steady

/-! ## Blocks -/

theorem indent_eq_replicate (level : Nat) : indent level = List.replicate (4 * level) ' ' := by
  induction level with
  | zero => rfl
  | succ level ih =>
    rw [indent_succ, ih, Nat.mul_succ]
    exact List.replicate_append_replicate (m := 4)

theorem inline_indent (level : Nat) : Inline (indent level) := by
  intro c hc
  rw [indent_eq_replicate] at hc
  rw [(List.mem_replicate.mp hc).2]
  rfl

theorem Fits.beginsLine {level : Nat} {t : List Char} (h : Fits level t) (r : List Char) :
    BeginsLine level (indent level ++ (t ++ r)) := by
  obtain ⟨c, s, rfl, hspace, hline, hbrace⟩ := h.begins
  exact .inr ⟨level, c, s ++ r, by rw [indent_eq_replicate]; rfl, hspace, hline, by simp [hbrace]⟩

/-- Texts on lines of their own. -/
theorem steady_lines {level : Nat} {ts : List (List Char)} (h : ∀ t ∈ ts, Fits level t) :
    netBraces (listChars ['\n'] (indent level) [] ts) = 0 ∧
      Steady level (listChars ['\n'] (indent level) [] ts) := by
  induction ts with
  | nil => exact ⟨rfl, trivial⟩
  | cons t ts ih =>
    rw [List.forall_mem_cons] at h
    have hrest : netBraces (restChars ['\n'] (indent level) [] ts) = 0 ∧
        Steady level (restChars ['\n'] (indent level) [] ts) := by
      cases ts with
      | nil => exact ⟨rfl, trivial⟩
      | cons t' ts =>
        obtain ⟨hnet, hsteady⟩ := ih h.2
        rw [restChars_cons]
        refine ⟨by simpa [netBraces, braceWeight] using hnet, ?_, ?_⟩
        · intro _
          exact (h.2 t' (by simp)).beginsLine _
        · simpa [braceWeight] using hsteady
    have hline := h.1.append hrest.1 hrest.2
    have hindent := inline_indent level
    rw [listChars, List.nil_append]
    refine ⟨by rw [netBraces_append, hindent.netBraces, hline.net, Int.add_zero], ?_⟩
    apply (hindent.steady level).append
    rw [hindent.netBraces, Int.add_zero]
    exact hline.steady

theorem fits_blockChars {level : Nat} {ts : List (List Char)} (h : ∀ t ∈ ts, Fits (level + 1) t) :
    Fits level (blockChars level ts) := by
  obtain ⟨hnet, hsteady⟩ := steady_lines h
  have hindent := inline_indent level
  -- The last line is the only one that is not inside the block.
  have hclose : BeginsLine ((level + 1 : Nat) : Int) (indent level ++ ['\x7d']) :=
    .inr ⟨level, '\x7d', [], by rw [indent_eq_replicate], by decide, by decide, by simp⟩
  have hlast : Steady ((level + 1 : Nat) : Int) ('\n' :: (indent level ++ ['\x7d'])) := by
    refine ⟨fun _ => hclose, (hindent.steady _).append ?_⟩
    simp [Steady]
  refine ⟨⟨'\x7b', _, rfl, by decide, by decide, by decide⟩, ?_, ?_⟩
  · simp [blockChars, netBraces, netBraces_append, hnet, hindent.netBraces, braceWeight]
  · refine ⟨by simp, ?_, ?_⟩
    · intro _
      cases ts with
      | nil => exact .inl ⟨_, rfl⟩
      | cons t ts =>
        have hfirst := (h t (by simp)).beginsLine (restChars ['\n'] (indent (level + 1)) [] ts ++
          '\n' :: (indent level ++ ['\x7d']))
        simpa [listChars, braceWeight] using hfirst
    · have hinside := hsteady.append (by rw [hnet, Int.add_zero]; exact hlast)
      simpa [braceWeight] using hinside

/-! ## Statements and other nodes -/

mutual

theorem Stmt.fits (level : Nat) (s : Stmt) (h : (Node.stmt s).Compact) :
    Fits level (s.chars level) := by
  match s with
  | .brk => exact Solid.fits (t := ['b', 'r', 'e', 'a', 'k']) (by decide) level
  | .cont => exact Solid.fits (t := ['c', 'o', 'n', 't', 'i', 'n', 'u', 'e']) (by decide) level
  | .ret none => exact Solid.fits (t := ['r', 'e', 't', 'u', 'r', 'n']) (by decide) level
  | .ret (some e) =>
    have he := e.solid (h.child (by simp [Node.children, Stmt.children]))
    refine Solid.fits (Solid.append (by decide) ?_) level
    simp [Expr.valueChars, he.inline, isLayout]
  | .block stats =>
    exact fits_blockChars (Stmt.fits_texts (level + 1) stats fun s hs =>
      h.child (by simp [Node.children, Stmt.children, hs]))
  | .expr e => exact (e.solid (h.child (by simp [Node.children, Stmt.children]))).fits level
  | .decl d => exact (d.solid h).fits level
  | .ite condition thenBranch elseBranch =>
    have hcondition := condition.solid (h.child (by simp [Node.children, Stmt.children]))
    have hthen := thenBranch.fits level (h.child (by simp [Node.children, Stmt.children]))
    have hhead : Solid ("if (".toList ++ (condition.chars ++ [')', ' '])) :=
      Solid.append (by decide +kernel) (by simp [hcondition.inline, isLayout])
    have helse := Stmt.steady_elseChars level elseBranch fun s hs =>
      h.child (by simp_all [Node.children, Stmt.children])
    simpa [Stmt.chars] using (hthen.append helse.1 helse.2).after hhead
  | .loop condition body =>
    have hcondition := condition.solid (h.child (by simp [Node.children, Stmt.children]))
    have hbody := body.fits level (h.child (by simp [Node.children, Stmt.children]))
    have hhead : Solid ("while (".toList ++ (condition.chars ++ [')', ' '])) :=
      Solid.append (by decide +kernel) (by simp [hcondition.inline, isLayout])
    simpa [Stmt.chars] using hbody.after hhead

theorem Stmt.steady_elseChars (level : Nat) (branch : Option Stmt)
    (h : ∀ s ∈ branch.toList, (Node.stmt s).Compact) :
    netBraces (Stmt.elseChars level branch) = 0 ∧ Steady level (Stmt.elseChars level branch) := by
  match branch with
  | none => exact ⟨rfl, trivial⟩
  | some s =>
    have hs := s.fits level (h s (by simp))
    have hword : Inline " else ".toList := by decide +kernel
    have hchars : Stmt.elseChars level (some s) = " else ".toList ++ s.chars level := by
      simp [Stmt.elseChars]
    rw [hchars]
    refine ⟨by rw [netBraces_append, hword.netBraces, hs.net, Int.add_zero], ?_⟩
    exact (hword.steady level).append (by rw [hword.netBraces, Int.add_zero]; exact hs.steady)

theorem Stmt.fits_texts (level : Nat) (ss : List Stmt) (h : ∀ s ∈ ss, (Node.stmt s).Compact) :
    ∀ t ∈ Stmt.texts level ss, Fits level t := by
  match ss with
  | [] => simp [Stmt.texts]
  | s :: ss =>
    rw [List.forall_mem_cons] at h
    rw [Stmt.texts, List.forall_mem_cons]
    exact ⟨s.fits level h.1, Stmt.fits_texts level ss h.2⟩

end

theorem FunctionDecl.fits (f : FunctionDecl) (h : (Node.function f).Compact) :
    Fits 0 (f.chars 0) := by
  have hheader := f.header.solid (h.child (by simp [Node.children]))
  have hbody := Stmt.fits 0 (.block f.body) (h.child (by simp [Node.children]))
  have hhead : Solid (f.header.chars ++ [' ']) := hheader.append (by decide)
  simpa [FunctionDecl.chars, Stmt.chars] using hbody.after hhead

/-- The fields of a structure stand on their lines as the statements of a block do. -/
theorem StructDecl.fits (d : StructDecl) (h : (Node.struct d).Compact) : Fits 0 d.chars := by
  have hid : Solid d.id.toList := h.solid_name (by simp [Node.children])
  have hfields : ∀ t ∈ d.fields.map Declaration.chars, Fits (0 + 1) t := by
    rw [List.forall_mem_map]
    exact fun x hx => (x.solid (h.child (by simp [Node.children, hx]))).fits 1
  have hhead : Solid ("struct ".toList ++ (d.id.toList ++ [' '])) :=
    Solid.append (by decide +kernel) (by simp [hid.inline, isLayout])
  have hchars : d.chars = "struct ".toList ++ (d.id.toList ++ [' ']) ++
      blockChars 0 (d.fields.map Declaration.chars) := by
    simp [StructDecl.chars, blockChars, indent, indentation]
  rw [hchars]
  exact (fits_blockChars hfields).after hhead

theorem Node.fits (n : Node) (h : n.Compact) : Fits 0 (n.chars 0) := by
  cases n with
  | expr e => exact (e.solid h).fits 0
  | stmt s => exact s.fits 0 h
  | type ty => exact (ty.solid h).fits 0
  | declarator d => exact (d.solid h).fits 0
  | parameter p => exact (p.solid h).fits 0
  | header d => exact (d.solid h).fits 0
  | function f => exact f.fits h
  | struct d => exact d.fits h

/-! ## Lines -/

/-- A line of a text in its place: behind the lines before it, and before the end of the text or the
next line break. -/
theorem splitOn_line {t : List Char} {before : List (List Char)} {line : List Char}
    {after : List (List Char)} (h : t.splitOn '\n' = before ++ line :: after) :
    '\n' ∉ line ∧ ∃ r, t = before.flatMap (· ++ ['\n']) ++ (line ++ r) ∧
      (r = [] ∨ ∃ s, r = '\n' :: s) := by
  induction before generalizing t with
  | nil =>
    by_cases hmem : '\n' ∈ t
    · obtain ⟨first, rest, rfl, hfirst⟩ := List.eq_append_cons_of_mem hmem
      rw [List.splitOn_append_cons_self_of_not_mem hfirst, List.nil_append, List.cons.injEq] at h
      obtain ⟨rfl, -⟩ := h
      exact ⟨hfirst, '\n' :: rest, rfl, .inr ⟨rest, rfl⟩⟩
    · rw [List.splitOn_eq_singleton hmem, List.nil_append, List.cons.injEq] at h
      obtain ⟨rfl, -⟩ := h
      exact ⟨hmem, [], by simp, .inl rfl⟩
  | cons b before ih =>
    by_cases hmem : '\n' ∈ t
    · obtain ⟨first, rest, rfl, hfirst⟩ := List.eq_append_cons_of_mem hmem
      rw [List.splitOn_append_cons_self_of_not_mem hfirst, List.cons_append, List.cons.injEq] at h
      obtain ⟨rfl, h⟩ := h
      obtain ⟨hline, r, rfl, hr⟩ := ih h
      exact ⟨hline, r, by simp, hr⟩
    · rw [List.splitOn_eq_singleton hmem] at h
      simp at h

theorem netBraces_lines (lines : List (List Char)) :
    netBraces (lines.flatMap (· ++ ['\n'])) = netBraces lines.flatten := by
  induction lines with
  | nil => rfl
  | cons line lines ih => simp [netBraces_append, ih, netBraces, braceWeight]

/-- A line that is not empty reaches as far as the character behind its indentation. -/
theorem eq_of_replicate_append (steps : Nat) {c : Char} {s line r : List Char}
    (hne : line ≠ []) (hc : c ≠ '\n') (hr : r = [] ∨ ∃ s, r = '\n' :: s)
    (h : List.replicate steps ' ' ++ c :: s = line ++ r) :
    ∃ rest, line = List.replicate steps ' ' ++ c :: rest := by
  induction steps generalizing line with
  | zero =>
    cases line with
    | nil => exact absurd rfl hne
    | cons d line =>
      simp only [List.replicate_zero, List.nil_append, List.cons_append, List.cons.injEq] at h
      exact ⟨line, by simp [h.1]⟩
  | succ steps ih =>
    cases line with
    | nil => exact absurd rfl hne
    | cons d line =>
      rw [List.replicate_succ, List.cons_append, List.cons_append, List.cons.injEq] at h
      obtain ⟨rfl, h⟩ := h
      by_cases hline : line = []
      · subst hline
        rcases hr with rfl | ⟨s', rfl⟩
        · simp at h
        · cases steps <;> simp_all [List.replicate_succ]
      · obtain ⟨rest, rfl⟩ := ih hline h
        exact ⟨rest, by rw [List.replicate_succ]; rfl⟩

/-- Every line of a rendered tree that is not empty is indented by four spaces for each brace that
the lines before it leave open, less one if the line itself begins by closing a brace; and in the
end no brace is open. -/
theorem Node.render_indented (n : Node) (h : n.Compact) :
    (∀ before line after, n.render.toList.splitOn '\n' = before ++ line :: after → line ≠ [] →
      ∃ depth c rest, line = List.replicate (4 * depth) ' ' ++ c :: rest ∧ c ≠ ' ' ∧
        before.flatten.count '\x7b' =
          before.flatten.count '\x7d' + (if c = '\x7d' then 1 else 0) + depth) ∧
    n.render.toList.count '\x7b' = n.render.toList.count '\x7d' := by
  rw [Node.render_toList]
  have hfits := n.fits h
  refine ⟨?_, ?_⟩
  · intro before line after hsplit hne
    obtain ⟨hline, r, htext, hr⟩ := splitOn_line hsplit
    rcases before.eq_nil_or_concat with rfl | ⟨lines, last, rfl⟩
    · -- The first line begins as the text does.
      obtain ⟨c, s, hcons, hspace, hbreak, hbrace⟩ := hfits.begins
      obtain ⟨rest, rfl⟩ :=
        eq_of_replicate_append 0 hne hbreak hr (hcons.symm.trans htext)
      exact ⟨0, c, rest, rfl, hspace, by simp [hbrace]⟩
    · -- Every other line begins behind a line break.
      have hsteady := hfits.steady
      have hnet : netBraces (lines.flatMap (· ++ ['\n']) ++ last) =
          netBraces (lines.concat last).flatten := by
        simp [netBraces_append, netBraces_lines]
      rw [htext, show (lines.concat last).flatMap (· ++ ['\n']) ++ (line ++ r) =
        (lines.flatMap (· ++ ['\n']) ++ last) ++ '\n' :: (line ++ r) by simp] at hsteady
      rcases hsteady.beginsLine with ⟨s, hs⟩ | ⟨depth, c, s, hs, hspace, hbreak, hdepth⟩
      · obtain ⟨d, line, rfl⟩ := List.exists_cons_of_ne_nil hne
        simp_all
      · obtain ⟨rest, rfl⟩ := eq_of_replicate_append _ hne hbreak hr hs.symm
        refine ⟨depth, c, rest, rfl, hspace, ?_⟩
        rw [hnet, netBraces_eq_count] at hdepth
        by_cases hc : c = '\x7d' <;> simp only [hc, if_true, if_false] at hdepth ⊢ <;> omega
  · have hnet := hfits.net
    rw [netBraces_eq_count] at hnet
    omega

/-- A loop around a branch with two blocks, one of them empty, and a structure. -/
theorem Node.render_indented_branches :
    let branch : Stmt :=
      .ite (.ident "a") (.block [.brk, .ret (some (.ident "b"))]) (some (.block []))
    let loop : Node := .stmt (.loop (.const ⟨.bool, .int 1⟩) (.block [branch]))
    loop.Compact ∧
    loop.render.toList.splitOn '\n' =
      (["while (true) \x7b", "    if (a) \x7b", "        break", "        return b",
        "    \x7d else \x7b", "", "    \x7d", "\x7d"].map String.toList) ∧
    ∃ depth c rest, "    \x7d else \x7b".toList = List.replicate (4 * depth) ' ' ++ c :: rest ∧
      c ≠ ' ' ∧ 2 = 0 + (if c = '\x7d' then 1 else 0) + depth := by
  intro branch loop
  have hcompact : loop.Compact := by decide +kernel
  have hlines : loop.render.toList.splitOn '\n' =
      (["while (true) \x7b", "    if (a) \x7b", "        break", "        return b",
        "    \x7d else \x7b", "", "    \x7d", "\x7d"].map String.toList) := by decide +kernel
  refine ⟨hcompact, hlines, ?_⟩
  exact (loop.render_indented hcompact).1
    (["while (true) \x7b", "    if (a) \x7b", "        break", "        return b"].map
      String.toList) _ (["", "    \x7d", "\x7d"].map String.toList) hlines (by decide +kernel)

end SyntaxForest
