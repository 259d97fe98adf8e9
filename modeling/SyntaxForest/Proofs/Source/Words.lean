import SyntaxForest.Proofs.Numeric.Digits
import SyntaxForest.Source.Literal

/-!
# Words

Names, keywords and the digits of literals are runs of letters, digits and underscores. Two texts
that begin with such runs, and go on with something else, begin with the same run
(`run_unique`). A whole constant is read off its literal (`Constant.literal_inj`), and no literal is
a name.
-/

namespace SyntaxForest

open Numeric

/-! ## Runs of characters -/

/-- The text does not go on with a character of the class. -/
def Stops (p : Char → Bool) (r : List Char) : Prop := ∀ c s, r = c :: s → p c = false

section

variable {p q : Char → Bool} {r : List Char}

theorem Stops.nil : Stops p [] := by
  intro c s h
  cases h

theorem Stops.cons {c : Char} (s : List Char) (h : p c = false) : Stops p (c :: s) := by
  intro c' s' hcs
  cases hcs
  exact h

theorem Stops.imp (h : Stops p r) (hpq : ∀ c, q c = true → p c = true) : Stops q r := by
  intro c s hr
  have hp := h c s hr
  cases hq : q c with
  | false => rfl
  | true => rw [hpq c hq] at hp; cases hp

/-- Two runs of a class that are followed by something else are told apart. -/
theorem run_unique {w₁ w₂ r₁ r₂ : List Char} (hw₁ : ∀ c ∈ w₁, p c = true)
    (hw₂ : ∀ c ∈ w₂, p c = true) (hr₁ : Stops p r₁) (hr₂ : Stops p r₂)
    (h : w₁ ++ r₁ = w₂ ++ r₂) : w₁ = w₂ ∧ r₁ = r₂ := by
  induction w₁ generalizing w₂ with
  | nil =>
    cases w₂ with
    | nil => exact ⟨rfl, h⟩
    | cons c w₂ =>
      have hc := hr₁ c _ h
      rw [hw₂ c (by simp)] at hc
      cases hc
  | cons c w₁ ih =>
    cases w₂ with
    | nil =>
      have hc := hr₂ c _ h.symm
      rw [hw₁ c (by simp)] at hc
      cases hc
    | cons d w₂ =>
      rw [List.forall_mem_cons] at hw₁ hw₂
      rw [List.cons_append, List.cons_append, List.cons.injEq] at h
      obtain ⟨rfl, hr⟩ := ih hw₁.2 hw₂.2 h.2
      exact ⟨by rw [h.1], hr⟩

end

/-- The characters of words. -/
def isWordChar (c : Char) : Bool := c.isAlphanum || c == '_'

/-- A run of at least one character of words. -/
def IsWord (w : List Char) : Prop := w ≠ [] ∧ ∀ c ∈ w, isWordChar c = true

theorem IsWord.cons {w : List Char} (h : IsWord w) :
    ∃ c s, w = c :: s ∧ isWordChar c = true := by
  obtain ⟨hne, hall⟩ := h
  cases w with
  | nil => exact absurd rfl hne
  | cons c s => exact ⟨c, s, rfl, hall c (by simp)⟩

theorem IsWord.unique {w₁ w₂ r₁ r₂ : List Char} (hw₁ : IsWord w₁) (hw₂ : IsWord w₂)
    (hr₁ : Stops isWordChar r₁) (hr₂ : Stops isWordChar r₂) (h : w₁ ++ r₁ = w₂ ++ r₂) :
    w₁ = w₂ ∧ r₁ = r₂ :=
  run_unique hw₁.2 hw₂.2 hr₁ hr₂ h

/-! ## Names -/

/-- A letter or an underscore, and any number of characters of words behind it. -/
def isName (id : String) : Bool :=
  match id.toList with
  | [] => false
  | c :: s => (c.isAlpha || c == '_') && s.all isWordChar

/-- The words that stand for something else where an expression could stand. -/
def expressionWords : List String := ["true", "false"] ++ Primitive.all.map Primitive.keyword

theorem isName_cons {id : String} (h : isName id = true) :
    ∃ c s, id.toList = c :: s ∧ (c.isAlpha || c == '_') = true ∧ s.all isWordChar = true := by
  unfold isName at h
  split at h
  · cases h
  · next c s hid => exact ⟨c, s, hid, by simpa using h⟩

theorem isWord_of_isName {id : String} (h : isName id = true) : IsWord id.toList := by
  obtain ⟨c, s, hid, hc, hs⟩ := isName_cons h
  rw [hid]
  refine ⟨by simp, ?_⟩
  rw [List.forall_mem_cons]
  refine ⟨?_, by simpa using hs⟩
  simp only [Bool.or_eq_true] at hc
  rcases hc with hc | hc <;> simp [isWordChar, Char.isAlphanum, hc]

theorem Primitive.isName_keyword (kind : Primitive) : isName kind.keyword = true := by
  cases kind <;> decide +kernel

theorem Primitive.keyword_mem (kind : Primitive) : kind.keyword ∈ expressionWords := by
  cases kind <;> simp [expressionWords, Primitive.all]

theorem Primitive.keyword_inj {kind₁ kind₂ : Primitive} (h : kind₁.keyword = kind₂.keyword) :
    kind₁ = kind₂ := by
  cases kind₁ <;> cases kind₂ <;> simp_all [Primitive.keyword]

/-! ## Literals -/

/-- A whole payload, which is zero or one for a truth value. -/
def Constant.isWhole (c : Constant) : Bool :=
  match c.value with
  | .int value => c.kind != .bool || value == 0 || value == 1
  | .float _ => false

/-- Takes a minus off the front of a text, and says whether there was one. -/
def unsigned : List Char → Bool × List Char
  | '-' :: s => (true, s)
  | s => (false, s)

/-- The sign that `unsigned` takes off. -/
def signChars (minus : Bool) : List Char := if minus then ['-'] else []

theorem signChars_unsigned (t : List Char) : signChars (unsigned t).1 ++ (unsigned t).2 = t := by
  unfold unsigned
  split <;> simp [signChars]

theorem isWordChar_of_isDigit {c : Char} (h : c.isDigit = true) : isWordChar c = true := by
  simp [isWordChar, Char.isAlphanum, h]

/-- The characters of a number without its suffix. -/
def isNumberChar (c : Char) : Bool := c.isDigit || c == '-'

theorem isNumberChar_intText (v : Int) : ∀ c ∈ (intText v).toList, isNumberChar c = true := by
  have digits (n : Nat) : ∀ c ∈ (natText n).toList, isNumberChar c = true := by
    intro c hc
    simp [isNumberChar, allDigits_natText n c hc]
  cases v with
  | ofNat n => exact digits n
  | negSucc n =>
    rw [intText_negSucc, List.forall_mem_cons]
    exact ⟨rfl, digits (n + 1)⟩

theorem intText_numberChar (v : Int) :
    ∃ c s, (intText v).toList = c :: s ∧ isNumberChar c = true := by
  obtain ⟨c, s, hcs, hc⟩ := intText_cons v
  exact ⟨c, s, hcs, by simpa [isNumberChar, or_comm] using hc⟩

/-- What begins with another character is no number. -/
theorem cons_ne_intText {c : Char} (hc : isNumberChar c = false) (v : Int) (s t : List Char) :
    c :: s ≠ (intText v).toList ++ t := by
  obtain ⟨d, ds, hds, hd⟩ := intText_numberChar v
  rw [hds]
  rintro ⟨⟩
  rw [hc] at hd
  cases hd

theorem isNumberChar_of_letter {c : Char} (h : (c.isAlpha || c == '_') = true) :
    isNumberChar c = false := by
  rw [Bool.or_eq_true, beq_iff_eq] at h
  rcases h with h | rfl
  · have hdigit : c.isDigit = false := by
      change (decide (c.val ≥ 65 ∧ c.val ≤ 90) || decide (c.val ≥ 97) && decide (c.val ≤ 122)) =
        true at h
      simp only [Char.isDigit]
      grind
    have hminus : c ≠ '-' := by
      rintro rfl
      cases h
    simp [isNumberChar, hdigit, hminus]
  · rfl

theorem Primitive.suffix_eq {kind : Primitive} (h : kind ≠ .bool) :
    ∃ c, (kind.suffix?.getD illegalType).toList = [c] ∧ isWordChar c = true ∧
      isNumberChar c = false := by
  cases kind with
  | bool => exact absurd rfl h
  | byte => exact ⟨'B', rfl, rfl, rfl⟩
  | short => exact ⟨'S', rfl, rfl, rfl⟩
  | int => exact ⟨'I', rfl, rfl, rfl⟩
  | long => exact ⟨'L', rfl, rfl, rfl⟩
  | float => exact ⟨'F', rfl, rfl, rfl⟩
  | double => exact ⟨'D', rfl, rfl, rfl⟩

theorem Primitive.suffix_inj {kind₁ kind₂ : Primitive} (h₁ : kind₁ ≠ .bool) (h₂ : kind₂ ≠ .bool)
    (h : kind₁.suffix?.getD illegalType = kind₂.suffix?.getD illegalType) : kind₁ = kind₂ := by
  cases kind₁ <;> cases kind₂ <;> simp_all [Primitive.suffix?]

theorem unsigned_intText (v : Int) (s : List Char) :
    unsigned ((intText v).toList ++ s) =
      (decide (v < 0), (natText v.natAbs).toList ++ s) := by
  cases v with
  | ofNat n =>
    obtain ⟨d, ds, hds, hd⟩ := natText_cons n
    have hne : d ≠ '-' := by
      rintro rfl
      cases hd
    have hn : ¬ (Int.ofNat n < 0) := by simp
    simp [intText, hds, unsigned, hne]
  | negSucc n =>
    have hneg : Int.negSucc n < 0 := Int.negSucc_lt_zero n
    simp [intText, unsigned, hneg]

namespace Constant

/-- A whole constant is a truth value, or a number with its suffix. -/
theorem isWhole_cases {c : Constant} (h : c.isWhole = true) :
    (c = ⟨.bool, .int 0⟩ ∧ c.literal.toList = ['f', 'a', 'l', 's', 'e']) ∨
      (c = ⟨.bool, .int 1⟩ ∧ c.literal.toList = ['t', 'r', 'u', 'e']) ∨
      ∃ value, c.kind ≠ .bool ∧ c.value = .int value ∧ c.literal.toList =
        (intText value.toInt).toList ++ (c.kind.suffix?.getD illegalType).toList := by
  obtain ⟨kind, value⟩ := c
  cases value with
  | float x => simp [isWhole] at h
  | int v =>
    by_cases hkind : kind = .bool
    · subst hkind
      simp only [isWhole, Bool.or_eq_true, bne_self_eq_false, beq_iff_eq] at h
      rcases h with (h | h) | h
      · cases h
      · subst h
        exact .inl ⟨rfl, by decide +kernel⟩
      · subst h
        exact .inr (.inl ⟨rfl, by decide +kernel⟩)
    · refine .inr (.inr ⟨v, hkind, rfl, ?_⟩)
      cases kind <;> simp_all [literal, Scalar.digits?]

theorem isWord_unsigned {c : Constant} (h : c.isWhole = true) :
    IsWord (unsigned c.literal.toList).2 := by
  rcases isWhole_cases h with ⟨-, hlit⟩ | ⟨-, hlit⟩ | ⟨v, hkind, -, hlit⟩
  · have hall : ['f', 'a', 'l', 's', 'e'].all isWordChar = true := rfl
    rw [hlit]
    exact ⟨by simp [unsigned], List.all_eq_true.mp hall⟩
  · have hall : ['t', 'r', 'u', 'e'].all isWordChar = true := rfl
    rw [hlit]
    exact ⟨by simp [unsigned], List.all_eq_true.mp hall⟩
  · obtain ⟨letter, hletter, hword, -⟩ := Primitive.suffix_eq hkind
    rw [hlit, unsigned_intText, hletter]
    refine ⟨by simp, ?_⟩
    intro c hc
    rw [List.mem_append, List.mem_singleton] at hc
    rcases hc with hc | rfl
    · exact isWordChar_of_isDigit (allDigits_natText _ c hc)
    · exact hword

/-- A name that is spelled like a literal is one of the truth values. -/
theorem eq_truth_of_literal_eq {c : Constant} {id : String} (h : c.isWhole = true)
    (hid : isName id = true) (heq : c.literal.toList = id.toList) : id = "false" ∨ id = "true" := by
  rcases isWhole_cases h with ⟨-, hlit⟩ | ⟨-, hlit⟩ | ⟨v, -, -, hlit⟩
  · exact .inl (String.toList_inj.mp (heq ▸ hlit))
  · exact .inr (String.toList_inj.mp (heq ▸ hlit))
  · obtain ⟨c, s, hcs, hc, -⟩ := isName_cons hid
    rw [hlit, hcs] at heq
    exact absurd heq.symm (cons_ne_intText (isNumberChar_of_letter hc) _ _ _)

/-- No literal is a name, the names `true` and `false` apart. -/
theorem literal_ne_name {c : Constant} {id : String} (h : c.isWhole = true)
    (hid : isName id = true) (hwords : id ∉ expressionWords) : c.literal.toList ≠ id.toList := by
  intro heq
  rcases eq_truth_of_literal_eq h hid heq with rfl | rfl <;> simp [expressionWords] at hwords

/-- A whole constant is determined by its literal. -/
theorem literal_inj {c₁ c₂ : Constant} (h₁ : c₁.isWhole = true) (h₂ : c₂.isWhole = true)
    (h : c₁.literal.toList = c₂.literal.toList) : c₁ = c₂ := by
  -- A number begins with a digit or a sign, and `true` and `false` do not.
  rcases isWhole_cases h₁ with ⟨hc₁, hlit₁⟩ | ⟨hc₁, hlit₁⟩ | ⟨v₁, hkind₁, hv₁, hlit₁⟩ <;>
    rcases isWhole_cases h₂ with ⟨hc₂, hlit₂⟩ | ⟨hc₂, hlit₂⟩ | ⟨v₂, hkind₂, hv₂, hlit₂⟩ <;>
    rw [hlit₁, hlit₂] at h
  · rw [hc₁, hc₂]
  · cases h
  · exact absurd h (cons_ne_intText rfl _ _ _)
  · cases h
  · rw [hc₁, hc₂]
  · exact absurd h (cons_ne_intText rfl _ _ _)
  · exact absurd h.symm (cons_ne_intText rfl _ _ _)
  · exact absurd h.symm (cons_ne_intText rfl _ _ _)
  · -- The suffix is no digit, so the digits end where it begins.
    obtain ⟨l₁, hl₁, -, hstop₁⟩ := Primitive.suffix_eq hkind₁
    obtain ⟨l₂, hl₂, -, hstop₂⟩ := Primitive.suffix_eq hkind₂
    obtain ⟨hv, hl⟩ := run_unique (isNumberChar_intText _) (isNumberChar_intText _)
      (hl₁ ▸ Stops.cons [] hstop₁) (hl₂ ▸ Stops.cons [] hstop₂) h
    have hvalue : v₁ = v₂ := Int64.toInt_inj.mp (intText_inj hv)
    have hkind := Primitive.suffix_inj hkind₁ hkind₂ (String.toList_inj.mp hl)
    cases c₁
    cases c₂
    simp_all

end Constant

end SyntaxForest
