import Mathlib.Algebra.Group.Int.Defs
import SyntaxForest.Proofs.Source.Expressions

/-!
# Signs in front of literals

A formula is an expression of operators, names and whole literals. Its operators stand in
parentheses, but nothing separates a prefix operator from the literal behind it. So the negation of
a negative literal is spelled like the decrement of a positive one, `(--1I)`, and its text does not
tell the two apart.

This is the only such case: two formulas have the same text exactly when they are the same once
every negated negative literal is taken for a decrement (`Expr.render_eq_iff_fuseSigns_eq`). The
least number of 64 bits stays as it is, since without its sign it is no number.
-/

namespace SyntaxForest

open Numeric

/-! ## Formulas -/

/-- Expressions of operators, names other than the truth values, and whole literals. -/
def Expr.isFormula : Expr → Bool
  | .ident id => isName id && id != "true" && id != "false"
  | .const c => c.isWhole
  | .unary _ e => e.isFormula
  | .binary _ left right => left.isFormula && right.isFormula
  | .assign _ lval rval => lval.isFormula && rval.isFormula
  | _ => false

/-- The literal without its minus, if it has one and the number without it fits. -/
def Constant.withoutMinus? (c : Constant) : Option Constant :=
  match c.value with
  | .int v =>
    if -2 ^ 63 < v.toInt ∧ v.toInt < 0 then some ⟨c.kind, .int (.ofInt (-v.toInt))⟩ else none
  | .float _ => none

/-- The negation of an expression, or the decrement that is spelled like it. -/
def Expr.negate : Expr → Expr
  | .const c => match c.withoutMinus? with
    | some d => .unary .preDec (.const d)
    | none => .unary .neg (.const c)
  | e => .unary .neg e

/-- The expression with every negated negative literal taken for a decrement. -/
def Expr.fuseSigns : Expr → Expr
  | .unary op e => if op = .neg then e.fuseSigns.negate else .unary op e.fuseSigns
  | .binary op left right => .binary op left.fuseSigns right.fuseSigns
  | .assign op lval rval => .assign op lval.fuseSigns rval.fuseSigns
  | e => e

/-! ## Literals with and without a minus -/

theorem intText_of_neg {v : Int} (h : v < 0) :
    (intText v).toList = '-' :: (intText (-v)).toList := by
  cases v with
  | ofNat n => exact absurd h (by simp)
  | negSucc n => exact intText_negSucc n

theorem neg_of_intText_eq {v : Int} {s : List Char} (h : (intText v).toList = '-' :: s) :
    v < 0 := by
  cases v with
  | ofNat n =>
    obtain ⟨d, ds, hds, hd⟩ := natText_cons n
    rw [intText, hds, List.cons.injEq] at h
    rw [h.1] at hd
    cases hd
  | negSucc n => exact Int.negSucc_lt_zero n

namespace Constant

theorem literal_int {kind : Primitive} (hkind : kind ≠ .bool) (v : Int64) :
    (⟨kind, .int v⟩ : Constant).literal.toList =
      (intText v.toInt).toList ++ (kind.suffix?.getD illegalType).toList := by
  cases kind <;> simp_all [literal, Scalar.digits?]

/-- What stands behind the minus of a literal begins with a digit. -/
theorem literal_of_minus {c : Constant} {s : List Char} (hc : c.isWhole = true)
    (h : c.literal.toList = '-' :: s) :
    ∃ v, c.value = .int v ∧ c.kind ≠ .bool ∧ v.toInt < 0 ∧
      s = (intText (-v.toInt)).toList ++ (c.kind.suffix?.getD illegalType).toList := by
  rcases isWhole_cases hc with ⟨-, hlit⟩ | ⟨-, hlit⟩ | ⟨v, hkind, hv, hlit⟩
  · rw [hlit] at h
    cases h
  · rw [hlit] at h
    cases h
  · rw [hlit] at h
    obtain ⟨e, es, hes, -⟩ := intText_cons v.toInt
    rw [hes, List.cons_append, List.cons.injEq] at h
    have hneg : v.toInt < 0 := neg_of_intText_eq (hes.trans (by rw [h.1]))
    rw [intText_of_neg hneg, List.cons.injEq] at hes
    exact ⟨v, hv, hkind, hneg, by rw [hes.2, h.2]⟩

/-- A literal that is another one behind a minus. -/
theorem withoutMinus?_eq_some {c d : Constant} (hc : c.isWhole = true) (hd : d.isWhole = true) :
    c.withoutMinus? = some d ↔ c.literal.toList = '-' :: d.literal.toList := by
  have range (v : Int64) : -2 ^ 63 ≤ v.toInt ∧ v.toInt < 2 ^ 63 := ⟨v.le_toInt, v.toInt_lt⟩
  obtain ⟨kind, value⟩ := c
  constructor
  · intro h
    cases value with
    | float x => cases h
    | int v =>
      simp only [withoutMinus?, Option.ite_none_right_eq_some, Option.some.injEq] at h
      obtain ⟨⟨hlow, hneg⟩, rfl⟩ := h
      have hkind : kind ≠ .bool := by
        rintro rfl
        simp only [isWhole, bne_self_eq_false, Bool.false_or, Bool.or_eq_true, beq_iff_eq] at hc
        rcases hc with rfl | rfl <;> exact absurd hneg (by decide)
      rw [literal_int hkind, literal_int hkind, intText_of_neg hneg,
        Int64.toInt_ofInt_of_le (by omega) (by omega), List.cons_append]
  · intro h
    obtain ⟨v, rfl, hkind, hneg, hs⟩ := literal_of_minus hc h
    -- The other literal is the number without its sign, so that number fits.
    rcases isWhole_cases hd with ⟨-, hlit⟩ | ⟨-, hlit⟩ | ⟨w, hkind', hw, hlit⟩
    · exact absurd (hlit.symm.trans hs) (cons_ne_intText rfl _ _ _)
    · exact absurd (hlit.symm.trans hs) (cons_ne_intText rfl _ _ _)
    · rw [hlit] at hs
      obtain ⟨l₁, hl₁, -, hstop₁⟩ := Primitive.suffix_eq hkind
      obtain ⟨l₂, hl₂, -, hstop₂⟩ := Primitive.suffix_eq hkind'
      obtain ⟨hv, hl⟩ := run_unique (isNumberChar_intText _) (isNumberChar_intText _)
        (hl₂ ▸ Stops.cons [] hstop₂) (hl₁ ▸ Stops.cons [] hstop₁) hs
      have hvalue : w.toInt = -v.toInt := intText_inj hv
      have hkinds := Primitive.suffix_inj hkind' hkind (String.toList_inj.mp hl)
      have := range w
      have hwv : Int64.ofInt (-v.toInt) = w := by rw [← hvalue, Int64.ofInt_toInt]
      obtain ⟨kind', value'⟩ := d
      simp only at hw hkinds
      subst hw hkinds
      simp only [withoutMinus?]
      rw [if_pos (by omega), hwv]

end Constant

/-! ## Operands -/

/-- Whether an expression is a name or a literal. -/
def Expr.isLeaf : Expr → Bool
  | .ident _ | .const _ => true
  | _ => false

/-- A name or literal is a word behind a sign that may be missing. -/
theorem Expr.chars_of_isLeaf {e : Expr} (hleaf : e.isLeaf = true) (he : e.isFormula = true) :
    e.chars = signChars (unsigned e.chars).1 ++ (unsigned e.chars).2 ∧
      IsWord (unsigned e.chars).2 := by
  refine ⟨(signChars_unsigned _).symm, ?_⟩
  cases e with
  | ident id =>
    simp only [Expr.isFormula, Bool.and_eq_true] at he
    obtain ⟨c, s, hcs, hc, -⟩ := isName_cons he.1.1
    have hword := isWord_of_isName he.1.1
    have hminus : c ≠ '-' := by
      rintro rfl
      cases hc
    rw [Expr.chars, hcs] at *
    simpa [unsigned, hminus] using hword
  | const c => exact Constant.isWord_unsigned he
  | _ => cases hleaf

/-- Every other formula begins with a parenthesis. -/
theorem Expr.chars_of_not_isLeaf {e : Expr} (hleaf : e.isLeaf = false) (he : e.isFormula = true) :
    ∃ t, e.chars = '(' :: t := by
  cases e with
  | ident | const => cases hleaf
  | call | index | access | cast => cases he
  | unary op e =>
    rw [Expr.chars]
    split <;> exact ⟨_, rfl⟩
  | binary | assign => exact ⟨_, rfl⟩

/-- Behind its sign, a formula begins with a word or a parenthesis. -/
theorem Expr.begins_unsigned {e : Expr} (he : e.isFormula = true) :
    ∃ c s, (unsigned e.chars).2 = c :: s ∧ beginsHead c = true := by
  cases hleaf : e.isLeaf with
  | true =>
    obtain ⟨c, s, hcs, hc⟩ := (Expr.chars_of_isLeaf hleaf he).2.cons
    exact ⟨c, s, hcs, by simp [beginsHead, hc]⟩
  | false =>
    obtain ⟨t, ht⟩ := Expr.chars_of_not_isLeaf hleaf he
    exact ⟨'(', t, by rw [ht]; rfl, rfl⟩

theorem Expr.leaf_unique {e₁ e₂ : Expr} {r₁ r₂ : List Char} (hleaf₁ : e₁.isLeaf = true)
    (hleaf₂ : e₂.isLeaf = true) (h₁ : e₁.isFormula = true) (h₂ : e₂.isFormula = true)
    (hr₁ : Stops isWordChar r₁) (hr₂ : Stops isWordChar r₂)
    (h : e₁.chars ++ r₁ = e₂.chars ++ r₂) : e₁ = e₂ ∧ r₁ = r₂ := by
  obtain ⟨hchars₁, hword₁⟩ := Expr.chars_of_isLeaf hleaf₁ h₁
  obtain ⟨hchars₂, hword₂⟩ := Expr.chars_of_isLeaf hleaf₂ h₂
  have hsplit := h
  rw [hchars₁, hchars₂, List.append_assoc, List.append_assoc] at hsplit
  obtain ⟨hsign, hrest⟩ :=
    signChars_unique (Expr.begins_unsigned h₁) (Expr.begins_unsigned h₂) hsplit
  obtain ⟨hwords, rfl⟩ := hword₁.unique hword₂ hr₁ hr₂ hrest
  have hchars : e₁.chars = e₂.chars := List.append_cancel_right h
  refine ⟨?_, rfl⟩
  cases e₁ <;> cases e₂ <;> simp only [Expr.isLeaf, Bool.false_eq_true] at hleaf₁ hleaf₂ <;>
    simp only [Expr.isFormula, Bool.and_eq_true, bne_iff_ne] at h₁ h₂
  · rw [String.toList_inj.mp hchars]
  · rcases Constant.eq_truth_of_literal_eq h₂ h₁.1.1 hchars.symm with hid | hid
    · exact absurd hid h₁.2
    · exact absurd hid h₁.1.2
  · rcases Constant.eq_truth_of_literal_eq h₁ h₂.1.1 hchars with hid | hid
    · exact absurd hid h₂.2
    · exact absurd hid h₂.1.2
  · rw [Constant.literal_inj h₁ h₂ hchars]

/-- The symbols in front of an operand. -/
def prefixes : List (List Char) :=
  [[], ['+'], ['-'], ['!'], ['~'], ['+', '+'], ['-', '-']]

/-- The characters of prefix operators. -/
def isPrefixChar (c : Char) : Bool := c == '+' || c == '-' || c == '!' || c == '~'

/-- A sign can be taken for a part of the operator before it in one way only: behind nothing it is
a minus, and behind a minus it makes a decrement. -/
theorem prefix_sign_cases : ∀ o₁ ∈ prefixes, ∀ o₂ ∈ prefixes, ∀ minus₁ minus₂ : Bool,
    o₁ ++ signChars minus₁ = o₂ ++ signChars minus₂ →
    o₁ = o₂ ∧ minus₁ = minus₂ ∨
    (o₁ = [] ∧ o₂ = ['-'] ∨ o₁ = ['-'] ∧ o₂ = ['-', '-']) ∧ minus₁ = true ∧ minus₂ = false ∨
    (o₂ = [] ∧ o₁ = ['-'] ∨ o₂ = ['-'] ∧ o₁ = ['-', '-']) ∧ minus₂ = true ∧ minus₁ = false := by
  decide

/-- Operands behind their symbols: the symbols are the same, or the minus of one symbol is the sign
of the other operand. -/
theorem Expr.operand_cases {e₁ e₂ : Expr} {o₁ o₂ t₁ t₂ : List Char} (h₁ : e₁.isFormula = true)
    (h₂ : e₂.isFormula = true) (ho₁ : o₁ ∈ prefixes) (ho₂ : o₂ ∈ prefixes)
    (h : o₁ ++ (e₁.chars ++ t₁) = o₂ ++ (e₂.chars ++ t₂)) :
    o₁ = o₂ ∧ e₁.chars ++ t₁ = e₂.chars ++ t₂ ∨
    (o₁ = [] ∧ o₂ = ['-'] ∨ o₁ = ['-'] ∧ o₂ = ['-', '-']) ∧
      e₁.chars ++ t₁ = '-' :: (e₂.chars ++ t₂) ∨
    (o₂ = [] ∧ o₁ = ['-'] ∨ o₂ = ['-'] ∧ o₁ = ['-', '-']) ∧
      e₂.chars ++ t₂ = '-' :: (e₁.chars ++ t₁) := by
  have symbols (o : List Char) (ho : o ∈ prefixes) (minus : Bool) :
      ∀ c ∈ o ++ signChars minus, isPrefixChar c = true := by
    have hall : ∀ o ∈ prefixes, ∀ minus, (o ++ signChars minus).all isPrefixChar = true := by
      decide
    exact List.all_eq_true.mp (hall o ho minus)
  have stops {e : Expr} (he : e.isFormula = true) (t : List Char) :
      Stops isPrefixChar ((unsigned e.chars).2 ++ t) := by
    obtain ⟨c, s, hcs, hc⟩ := Expr.begins_unsigned he
    rw [hcs]
    refine Stops.cons _ (Bool.eq_false_iff.mpr fun hchar => ?_)
    simp only [isPrefixChar, Bool.or_eq_true, beq_iff_eq] at hchar
    rcases hchar with ((rfl | rfl) | rfl) | rfl <;> cases hc
  have hchars₁ := signChars_unsigned e₁.chars
  have hchars₂ := signChars_unsigned e₂.chars
  rw [← hchars₁, ← hchars₂] at h ⊢
  simp only [List.append_assoc] at h ⊢
  rw [← List.append_assoc o₁, ← List.append_assoc o₂] at h
  obtain ⟨hsymbols, hrest⟩ := run_unique (symbols o₁ ho₁ _) (symbols o₂ ho₂ _) (stops h₁ t₁)
    (stops h₂ t₂) h
  rw [hrest]
  rcases prefix_sign_cases o₁ ho₁ o₂ ho₂ _ _ hsymbols with
    ⟨ho, hs⟩ | ⟨ho, hs₁, hs₂⟩ | ⟨ho, hs₂, hs₁⟩
  · exact .inl ⟨ho, by rw [hs]⟩
  · exact .inr (.inl ⟨ho, by rw [hs₁, hs₂]; rfl⟩)
  · exact .inr (.inr ⟨ho, by rw [hs₁, hs₂]; rfl⟩)

/-- Only a literal is another operand behind a minus. -/
theorem Expr.eq_const_of_minus {e₁ e₂ : Expr} {t₁ t₂ : List Char} (h₁ : e₁.isFormula = true)
    (h₂ : e₂.isFormula = true) (ht₁ : Stops isWordChar t₁) (ht₂ : Stops isWordChar t₂)
    (h : e₁.chars ++ t₁ = '-' :: (e₂.chars ++ t₂)) :
    ∃ c₁ c₂, e₁ = .const c₁ ∧ e₂ = .const c₂ ∧ c₁.withoutMinus? = some c₂ ∧ t₁ = t₂ := by
  -- The first operand has a sign, so it is a literal, and its number is the second operand.
  obtain ⟨c₁, rfl⟩ : ∃ c₁, e₁ = .const c₁ := by
    cases e₁ with
    | const c₁ => exact ⟨c₁, rfl⟩
    | ident id =>
      simp only [Expr.isFormula, Bool.and_eq_true] at h₁
      obtain ⟨c, s, hcs, hc, -⟩ := isName_cons h₁.1.1
      rw [Expr.chars, hcs, List.cons_append, List.cons.injEq] at h
      rw [h.1] at hc
      cases hc
    | _ =>
      obtain ⟨t, ht⟩ := Expr.chars_of_not_isLeaf rfl h₁
      rw [ht] at h
      cases h
  have hword₁ : IsWord (unsigned c₁.literal.toList).2 := Constant.isWord_unsigned h₁
  obtain ⟨w, hw⟩ : ∃ w, c₁.literal.toList = '-' :: w := by
    cases hlit : c₁.literal.toList with
    | nil =>
      rw [hlit] at hword₁
      exact absurd rfl hword₁.1
    | cons c s =>
      rw [Expr.chars, hlit, List.cons_append, List.cons.injEq] at h
      exact ⟨s, by rw [h.1]⟩
  obtain ⟨v, -, -, -, hnumber⟩ := Constant.literal_of_minus h₁ hw
  rw [hw] at hword₁
  rw [Expr.chars, hw, List.cons_append, List.cons.injEq] at h
  obtain ⟨c, s, hcs, hc⟩ := hword₁.cons
  have hbegins : ∃ c s, w = c :: s ∧ beginsHead c = true := ⟨c, s, hcs, by simp [beginsHead, hc]⟩
  have hleaf : e₂.isLeaf = true := by
    rw [← Bool.not_eq_false]
    intro hleaf
    obtain ⟨t, ht⟩ := Expr.chars_of_not_isLeaf hleaf h₂
    have hword : w = c :: s := hcs
    rw [ht, hword] at h
    rw [(List.cons.inj h.2).1] at hc
    cases hc
  obtain ⟨hchars₂, hword₂⟩ := Expr.chars_of_isLeaf hleaf h₂
  have hsplit : signChars false ++ (w ++ t₁) =
      signChars (unsigned e₂.chars).1 ++ ((unsigned e₂.chars).2 ++ t₂) := by
    rw [← List.append_assoc (signChars _) (unsigned e₂.chars).2, ← hchars₂]
    exact h.2
  obtain ⟨hsign, hrest⟩ := signChars_unique hbegins (Expr.begins_unsigned h₂) hsplit
  obtain ⟨hwords, rfl⟩ := IsWord.unique hword₁ hword₂ ht₁ ht₂ hrest
  have hw₂ : e₂.chars = w := by
    rw [hchars₂, ← hsign, ← hwords]
    rfl
  cases e₂ with
  | ident id =>
    simp only [Expr.isFormula, Bool.and_eq_true] at h₂
    obtain ⟨c, s, hid, hletter, -⟩ := isName_cons h₂.1.1
    rw [Expr.chars, hid, hnumber] at hw₂
    exact absurd hw₂ (cons_ne_intText (isNumberChar_of_letter hletter) _ _ _)
  | const c₂ =>
    refine ⟨c₁, c₂, rfl, rfl, (Constant.withoutMinus?_eq_some h₁ h₂).mpr ?_, rfl⟩
    rw [hw, ← hw₂, Expr.chars]
  | _ => cases hleaf

/-! ## Groups -/

/-- The symbol in front of the first operand of a formula. -/
def Expr.prefixSymbol : Expr → List Char
  | .unary op _ => if op.followsOperand then [] else op.symbol.toList
  | _ => []

/-- The first operand of a formula. -/
def Expr.firstOperand : Expr → Expr
  | .unary _ e => e
  | .binary _ left _ => left
  | .assign _ lval _ => lval
  | e => e

theorem Expr.prefixSymbol_mem (e : Expr) : e.prefixSymbol ∈ prefixes := by
  cases e with
  | unary op e =>
    cases op <;> simp [Expr.prefixSymbol, prefixes, UnaryOp.followsOperand, UnaryOp.symbol]
  | _ => exact List.mem_cons_self

theorem Expr.chars_eq_group {e : Expr} (hleaf : e.isLeaf = false) (he : e.isFormula = true) :
    e.chars = '(' :: (e.prefixSymbol ++ (e.firstOperand.chars ++ e.closing.chars)) := by
  cases e with
  | ident | const => cases hleaf
  | call | index | access | cast => cases he
  | unary op e => cases hop : op.followsOperand <;>
      simp [Expr.chars, Expr.prefixSymbol, Expr.firstOperand, Expr.closing, Closing.chars, hop]
  | binary op left right =>
    simp [Expr.chars, Expr.prefixSymbol, Expr.firstOperand, Expr.closing, Closing.chars]
  | assign op lval rval =>
    simp [Expr.chars, Expr.prefixSymbol, Expr.firstOperand, Expr.closing, Closing.chars]

/-- The operands of a formula. -/
def Expr.operands : Expr → List Expr
  | .unary _ e => [e]
  | .binary _ left right => [left, right]
  | .assign _ lval rval => [lval, rval]
  | _ => []

/-- What follows the first operand, with signs fused. -/
def Closing.fuseSigns : Closing → Closing
  | .between s e => .between s e.fuseSigns
  | c => c

/-- The text of the formula fixes what the formula is once its signs are fused, whatever follows the
text without going on with a word. -/
def Expr.FixesSigns (e₁ : Expr) : Prop :=
  ∀ ⦃e₂ : Expr⦄ ⦃r₁ r₂ : List Char⦄, e₂.isFormula = true → Stops isWordChar r₁ →
    Stops isWordChar r₂ → e₁.chars ++ r₁ = e₂.chars ++ r₂ →
    e₁.fuseSigns = e₂.fuseSigns ∧ r₁ = r₂

/-- What follows the first operand is a symbol or an operator and a formula. -/
theorem Expr.closing_cases {e : Expr} (he : e.isFormula = true) :
    (∃ s ∈ [[], ['+', '+'], ['-', '-']], e.closing = .symbol s) ∨
      ∃ s right, Between s ∧ e.closing = .between s right ∧ right ∈ e.operands ∧
        right.isFormula = true := by
  cases e with
  | ident | const => exact .inl ⟨[], by simp, rfl⟩
  | call | index | access | cast => cases he
  | unary op e =>
    refine .inl ⟨_, ?_, rfl⟩
    cases op <;> simp [UnaryOp.followsOperand, UnaryOp.symbol]
  | binary op left right =>
    simp only [Expr.isFormula, Bool.and_eq_true] at he
    exact .inr ⟨_, right, op.between_symbol, rfl, by simp [Expr.operands], he.2⟩
  | assign op lval rval =>
    simp only [Expr.isFormula, Bool.and_eq_true] at he
    exact .inr ⟨_, rval, op.between_symbol, rfl, by simp [Expr.operands], he.2⟩

theorem Expr.stops_closing {e : Expr} (he : e.isFormula = true) (r : List Char) :
    Stops isWordChar (e.closing.chars ++ r) := by
  rcases Expr.closing_cases he with ⟨s, hs, hclosing⟩ | ⟨s, right, -, hclosing, -⟩
  · simp only [List.mem_cons, List.not_mem_nil, or_false] at hs
    rw [hclosing]
    rcases hs with rfl | rfl | rfl <;> exact Stops.cons _ rfl
  · rw [hclosing]
    exact Stops.cons _ rfl

theorem Expr.closing_unique {e₁ e₂ : Expr} {r₁ r₂ : List Char}
    (ih : ∀ x ∈ e₁.operands, x.FixesSigns) (h₁ : e₁.isFormula = true) (h₂ : e₂.isFormula = true)
    (h : e₁.closing.chars ++ r₁ = e₂.closing.chars ++ r₂) :
    e₁.closing.fuseSigns = e₂.closing.fuseSigns ∧ r₁ = r₂ := by
  rcases Expr.closing_cases h₁ with ⟨s₁, hs₁, hc₁⟩ | ⟨s₁, right₁, hb₁, hc₁, hmem, -⟩ <;>
    rcases Expr.closing_cases h₂ with ⟨s₂, hs₂, hc₂⟩ | ⟨s₂, right₂, hb₂, hc₂, -, hright₂⟩ <;>
    rw [hc₁, hc₂] at h ⊢
  · simp only [List.mem_cons, List.not_mem_nil, or_false] at hs₁ hs₂
    rcases hs₁ with rfl | rfl | rfl <;> rcases hs₂ with rfl | rfl | rfl <;>
      simp_all [Closing.chars]
  · simp only [List.mem_cons, List.not_mem_nil, or_false] at hs₁
    rcases hs₁ with rfl | rfl | rfl <;> cases h
  · simp only [List.mem_cons, List.not_mem_nil, or_false] at hs₂
    rcases hs₂ with rfl | rfl | rfl <;> cases h
  · simp only [Closing.chars, List.cons_append, List.append_assoc, List.cons.injEq, true_and] at h
    obtain ⟨rfl, hrest⟩ := hb₁.unique hb₂ h
    obtain ⟨hright, hr⟩ := ih right₁ hmem hright₂ (Stops.cons _ rfl) (Stops.cons _ rfl) hrest
    exact ⟨by rw [Closing.fuseSigns, Closing.fuseSigns, hright], by simpa using hr⟩

/-- The symbol before the first operand, that operand and what follows it make up the formula. -/
theorem Expr.fuseSigns_congr {e₁ e₂ : Expr} (hleaf₁ : e₁.isLeaf = false)
    (hleaf₂ : e₂.isLeaf = false) (h₁ : e₁.isFormula = true) (h₂ : e₂.isFormula = true)
    (hsymbols : e₁.prefixSymbol = e₂.prefixSymbol)
    (hfirst : e₁.firstOperand.fuseSigns = e₂.firstOperand.fuseSigns)
    (hclosing : e₁.closing.fuseSigns = e₂.closing.fuseSigns) : e₁.fuseSigns = e₂.fuseSigns := by
  cases e₁ with
  | ident | const => cases hleaf₁
  | call | index | access | cast => cases h₁
  | unary op₁ x₁ =>
    cases e₂ with
    | ident | const => cases hleaf₂
    | call | index | access | cast => cases h₂
    | unary op₂ x₂ =>
      have hop : op₁ = op₂ := by
        simp only [Expr.closing, Closing.fuseSigns, Closing.symbol.injEq] at hclosing
        rw [Expr.prefixSymbol, Expr.prefixSymbol] at hsymbols
        cases op₁ <;> cases op₂ <;> simp_all [UnaryOp.followsOperand, UnaryOp.symbol]
      simp only [Expr.firstOperand] at hfirst
      rw [Expr.fuseSigns, Expr.fuseSigns, hop, hfirst]
    | binary | assign => cases hclosing
  | binary op₁ left₁ right₁ =>
    cases e₂ with
    | ident | const => cases hleaf₂
    | call | index | access | cast => cases h₂
    | unary => cases hclosing
    | binary op₂ left₂ right₂ =>
      simp only [Expr.closing, Closing.fuseSigns, Closing.between.injEq] at hclosing
      have hop := BinaryOp.symbol_inj (String.toList_inj.mp hclosing.1)
      simp only [Expr.firstOperand] at hfirst
      rw [Expr.fuseSigns, Expr.fuseSigns, hop, hfirst, hclosing.2]
    | assign op₂ lval₂ rval₂ =>
      simp only [Expr.closing, Closing.fuseSigns, Closing.between.injEq] at hclosing
      exact absurd (String.toList_inj.mp hclosing.1).symm (op₂.symbol_ne_binary op₁)
  | assign op₁ lval₁ rval₁ =>
    cases e₂ with
    | ident | const => cases hleaf₂
    | call | index | access | cast => cases h₂
    | unary => cases hclosing
    | binary op₂ left₂ right₂ =>
      simp only [Expr.closing, Closing.fuseSigns, Closing.between.injEq] at hclosing
      exact absurd (String.toList_inj.mp hclosing.1) (op₁.symbol_ne_binary op₂)
    | assign op₂ lval₂ rval₂ =>
      simp only [Expr.closing, Closing.fuseSigns, Closing.between.injEq] at hclosing
      have hop := AssignOp.symbol_inj (String.toList_inj.mp hclosing.1)
      simp only [Expr.firstOperand] at hfirst
      rw [Expr.fuseSigns, Expr.fuseSigns, hop, hfirst, hclosing.2]

/-! ## Formulas with the same text -/

theorem Expr.eq_neg_of_prefixSymbol {e : Expr} (h : e.prefixSymbol = ['-']) :
    e = .unary .neg e.firstOperand := by
  cases e with
  | unary op x =>
    cases op <;> simp [Expr.prefixSymbol, UnaryOp.followsOperand, UnaryOp.symbol] at h
    rfl
  | _ => cases h

theorem Expr.eq_preDec_of_prefixSymbol {e : Expr} (h : e.prefixSymbol = ['-', '-']) :
    e = .unary .preDec e.firstOperand := by
  cases e with
  | unary op x =>
    cases op <;> simp [Expr.prefixSymbol, UnaryOp.followsOperand, UnaryOp.symbol] at h
    rfl
  | _ => cases h

/-- Without a symbol before its first operand, a group has something behind it. -/
theorem Expr.closing_ne_parenthesis {e : Expr} {r₁ r₂ : List Char} (hleaf : e.isLeaf = false)
    (he : e.isFormula = true) (hsymbols : e.prefixSymbol = []) :
    e.closing.chars ++ r₁ ≠ ')' :: r₂ := by
  cases e with
  | ident | const => cases hleaf
  | call | index | access | cast => cases he
  | unary op x =>
    cases op <;> simp [Expr.prefixSymbol, UnaryOp.followsOperand, UnaryOp.symbol] at hsymbols <;>
      rintro ⟨⟩
  | binary | assign => rintro ⟨⟩

/-- A group in which the sign of a literal takes the place of the other group's minus: the one is a
negation and the other a decrement. -/
theorem Expr.fuseSigns_of_minus {e₁ e₂ : Expr} {c₁ c₂ : Constant} {r₁ r₂ : List Char}
    (hleaf : e₁.isLeaf = false) (h₁ : e₁.isFormula = true)
    (hsymbols : e₁.prefixSymbol = [] ∧ e₂.prefixSymbol = ['-'] ∨
      e₁.prefixSymbol = ['-'] ∧ e₂.prefixSymbol = ['-', '-'])
    (hc₁ : e₁.firstOperand = .const c₁) (hc₂ : e₂.firstOperand = .const c₂)
    (hminus : c₁.withoutMinus? = some c₂)
    (h : e₁.closing.chars ++ r₁ = e₂.closing.chars ++ r₂) :
    e₁.fuseSigns = e₂.fuseSigns ∧ r₁ = r₂ := by
  rcases hsymbols with ⟨hp₁, hp₂⟩ | ⟨hp₁, hp₂⟩
  · rw [Expr.eq_neg_of_prefixSymbol hp₂] at h
    exact absurd h (Expr.closing_ne_parenthesis hleaf h₁ hp₁)
  · rw [Expr.eq_neg_of_prefixSymbol hp₁, Expr.eq_preDec_of_prefixSymbol hp₂, hc₁, hc₂] at h ⊢
    refine ⟨?_, (List.cons.inj h).2⟩
    simp [Expr.fuseSigns, Expr.negate, hminus]

theorem Expr.firstOperand_mem {e : Expr} (hleaf : e.isLeaf = false) (he : e.isFormula = true) :
    e.firstOperand ∈ e.operands ∧ e.firstOperand.isFormula = true := by
  cases e with
  | ident | const => cases hleaf
  | call | index | access | cast => cases he
  | unary | binary | assign => simp_all [Expr.firstOperand, Expr.operands, Expr.isFormula]

/-- A formula fixes what it is if its operands do. -/
theorem Expr.FixesSigns.of_operands {e₁ : Expr} (h₁ : e₁.isFormula = true)
    (ih : ∀ x ∈ e₁.operands, x.FixesSigns) : e₁.FixesSigns := by
  intro e₂ r₁ r₂ h₂ hr₁ hr₂ h
  have clash {e e' : Expr} {r r' : List Char} (he : e.isFormula = true) (he' : e'.isFormula = true)
      (hleaf : e.isLeaf = true) (hleaf' : e'.isLeaf = false) : e.chars ++ r ≠ e'.chars ++ r' := by
    intro h
    obtain ⟨hchars, hword⟩ := Expr.chars_of_isLeaf hleaf he
    obtain ⟨c, s, hcs, hc⟩ := hword.cons
    obtain ⟨t, ht⟩ := Expr.chars_of_not_isLeaf hleaf' he'
    rw [hchars, hcs, ht] at h
    cases hsign : (unsigned e.chars).1 <;> rw [hsign] at h
    · rw [(List.cons.inj h).1] at hc
      cases hc
    · exact absurd (List.cons.inj h).1 (by decide)
  cases hleaf₁ : e₁.isLeaf <;> cases hleaf₂ : e₂.isLeaf
  · -- Two groups: the first operands and the symbols before them come first.
    obtain ⟨hmem₁, hfirst₁⟩ := Expr.firstOperand_mem hleaf₁ h₁
    obtain ⟨-, hfirst₂⟩ := Expr.firstOperand_mem hleaf₂ h₂
    have hstops₁ := Expr.stops_closing h₁ r₁
    have hstops₂ := Expr.stops_closing h₂ r₂
    rw [Expr.chars_eq_group hleaf₁ h₁, Expr.chars_eq_group hleaf₂ h₂] at h
    simp only [List.cons_append, List.append_assoc, List.cons.injEq, true_and] at h
    rcases Expr.operand_cases hfirst₁ hfirst₂ e₁.prefixSymbol_mem e₂.prefixSymbol_mem h with
      ⟨hsymbols, hrest⟩ | ⟨hsymbols, hrest⟩ | ⟨hsymbols, hrest⟩
    · obtain ⟨hfirst, hrest⟩ := ih _ hmem₁ hfirst₂ hstops₁ hstops₂ hrest
      obtain ⟨hclosing, hr⟩ := Expr.closing_unique ih h₁ h₂ hrest
      exact ⟨Expr.fuseSigns_congr hleaf₁ hleaf₂ h₁ h₂ hsymbols hfirst hclosing, hr⟩
    · obtain ⟨c₁, c₂, hc₁, hc₂, hminus, hrest⟩ :=
        Expr.eq_const_of_minus hfirst₁ hfirst₂ hstops₁ hstops₂ hrest
      exact Expr.fuseSigns_of_minus hleaf₁ h₁ hsymbols hc₁ hc₂ hminus hrest
    · obtain ⟨c₂, c₁, hc₂, hc₁, hminus, hrest⟩ :=
        Expr.eq_const_of_minus hfirst₂ hfirst₁ hstops₂ hstops₁ hrest
      obtain ⟨hfuse, hr⟩ := Expr.fuseSigns_of_minus hleaf₂ h₂ hsymbols hc₂ hc₁ hminus hrest
      exact ⟨hfuse.symm, hr.symm⟩
  · exact absurd h.symm (clash h₂ h₁ hleaf₂ hleaf₁)
  · exact absurd h (clash h₁ h₂ hleaf₁ hleaf₂)
  · obtain ⟨rfl, hr⟩ := Expr.leaf_unique hleaf₁ hleaf₂ h₁ h₂ hr₁ hr₂ h
    exact ⟨rfl, hr⟩

theorem Expr.fixesSigns {e : Expr} (he : e.isFormula = true) : e.FixesSigns := by
  apply Expr.FixesSigns.of_operands he
  match e with
  | .unary op x =>
    have hx : x.isFormula = true := he
    rw [Expr.operands, List.forall_mem_singleton]
    exact Expr.fixesSigns hx
  | .binary op left right =>
    simp only [Expr.isFormula, Bool.and_eq_true] at he
    rw [Expr.operands, List.forall_mem_cons, List.forall_mem_singleton]
    exact ⟨Expr.fixesSigns he.1, Expr.fixesSigns he.2⟩
  | .assign op lval rval =>
    simp only [Expr.isFormula, Bool.and_eq_true] at he
    rw [Expr.operands, List.forall_mem_cons, List.forall_mem_singleton]
    exact ⟨Expr.fixesSigns he.1, Expr.fixesSigns he.2⟩
  | .ident _ | .const _ => simp [Expr.operands]

/-! ## Fusing signs keeps the text -/

theorem Constant.withoutMinus?_isWhole {c d : Constant} (hc : c.isWhole = true)
    (h : c.withoutMinus? = some d) : d.isWhole = true := by
  obtain ⟨kind, value⟩ := c
  cases value with
  | float x => cases h
  | int v =>
    simp only [Constant.withoutMinus?, Option.ite_none_right_eq_some, Option.some.injEq] at h
    obtain ⟨⟨-, hneg⟩, rfl⟩ := h
    cases kind with
    | bool =>
      simp only [Constant.isWhole, bne_self_eq_false, Bool.false_or, Bool.or_eq_true,
        beq_iff_eq] at hc
      rcases hc with rfl | rfl <;> exact absurd hneg (by decide)
    | _ => rfl

theorem Expr.chars_negate_const {c : Constant} (hc : c.isWhole = true) :
    (Expr.negate (.const c)).chars = (Expr.unary .neg (.const c)).chars := by
  rw [Expr.negate]
  split
  next d hd =>
    have hlit := (Constant.withoutMinus?_eq_some hc (Constant.withoutMinus?_isWhole hc hd)).mp hd
    simp [Expr.chars, UnaryOp.followsOperand, UnaryOp.symbol, hlit]
  next => rfl

theorem Expr.chars_negate {e : Expr} (he : e.isFormula = true) :
    e.negate.chars = (Expr.unary .neg e).chars := by
  cases e with
  | const c => exact Expr.chars_negate_const he
  | _ => rfl

theorem Expr.isFormula_negate {e : Expr} (he : e.isFormula = true) :
    e.negate.isFormula = true := by
  cases e with
  | const c =>
    rw [Expr.negate]
    split
    next d hd => exact Constant.withoutMinus?_isWhole he hd
    next => exact he
  | _ => exact he

/-- Fusing signs keeps a formula a formula with the same text. -/
theorem Expr.fuseSigns_spec {e : Expr} (he : e.isFormula = true) :
    e.fuseSigns.isFormula = true ∧ e.fuseSigns.chars = e.chars := by
  match e with
  | .unary op x =>
    obtain ⟨hformula, hchars⟩ := Expr.fuseSigns_spec (e := x) he
    rw [Expr.fuseSigns]
    split
    next hop =>
      refine ⟨Expr.isFormula_negate hformula, ?_⟩
      rw [Expr.chars_negate hformula, hop, Expr.chars, Expr.chars, hchars]
    next => exact ⟨hformula, by rw [Expr.chars, Expr.chars, hchars]⟩
  | .binary op left right =>
    simp only [Expr.isFormula, Bool.and_eq_true] at he
    obtain ⟨hleft, hchars⟩ := Expr.fuseSigns_spec he.1
    obtain ⟨hright, hchars'⟩ := Expr.fuseSigns_spec he.2
    simp [Expr.fuseSigns, Expr.isFormula, Expr.chars, hleft, hright, hchars, hchars']
  | .assign op lval rval =>
    simp only [Expr.isFormula, Bool.and_eq_true] at he
    obtain ⟨hlval, hchars⟩ := Expr.fuseSigns_spec he.1
    obtain ⟨hrval, hchars'⟩ := Expr.fuseSigns_spec he.2
    simp [Expr.fuseSigns, Expr.isFormula, Expr.chars, hlval, hrval, hchars, hchars']
  | .ident _ | .const _ => exact ⟨he, rfl⟩

/-- Two formulas have the same source text exactly when they are the same once every negated
negative literal is taken for a decrement. -/
theorem Expr.render_eq_iff_fuseSigns_eq {e₁ e₂ : Expr} (h₁ : e₁.isFormula = true)
    (h₂ : e₂.isFormula = true) : e₁.render = e₂.render ↔ e₁.fuseSigns = e₂.fuseSigns := by
  have hrender : e₁.render = e₂.render ↔ e₁.chars = e₂.chars := Node.render_eq_iff _ _
  rw [hrender]
  constructor
  · intro h
    exact (Expr.fixesSigns h₁ h₂ Stops.nil Stops.nil (by rw [h])).1
  · intro h
    rw [← (Expr.fuseSigns_spec h₁).2, h, (Expr.fuseSigns_spec h₂).2]

theorem Expr.render_eq_iff_fuseSigns_eq_nested :
    let assignment (e : Expr) : Expr := .assign .assign (.ident "x") (.unary .neg e)
    let decrement := assignment (.unary .preDec (.const ⟨.long, .int 7⟩))
    let negation := assignment (.unary .neg (.const ⟨.long, .int (-7)⟩))
    decrement.render = "(x = (-(--7L)))" ∧ negation.fuseSigns = decrement.fuseSigns :=
  ⟨by decide +kernel,
    (Expr.render_eq_iff_fuseSigns_eq (by decide +kernel) (by decide +kernel)).mp
      (by decide +kernel)⟩

/-- Two formulas with the same source text need not be the same: a minus behind a minus is read as a
decrement. -/
theorem Expr.render_negated_literal :
    let negation : Expr := .unary .neg (.const ⟨.int, .int (-1)⟩)
    let decrement : Expr := .unary .preDec (.const ⟨.int, .int 1⟩)
    negation.isFormula = true ∧ decrement.isFormula = true ∧ negation ≠ decrement ∧
      negation.render = decrement.render :=
  ⟨rfl, rfl, by simp, by decide +kernel⟩

end SyntaxForest
