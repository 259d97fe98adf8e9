import SyntaxForest.Proofs.Source.Spine

/-!
# Expressions are told apart by their texts

Two legible expressions whose texts, each followed by something that cannot continue an expression,
are the same are the same expression (`Expr.unique`), and likewise for types (`Ty.unique`). The
induction is on the length of the text, and it is on spines: what the two sides have at the same
place need not be of the same kind, as in `(x y)` and `(x + y)`, but it always has a spine.
-/

namespace SyntaxForest

open Renderer

/-! ## Lists between separators -/

/-- A way to write a list after which the end of the list can be found: what may stand behind the
list is never taken for one more element. -/
structure Separated {α : Type} (text : α → List Char) (separator before : List Char)
    (Element : α → Prop) (Next Stop : List Char → Prop) : Prop where
  next_further {a : α} (s : List Char) (ha : Element a) :
    Next (separator ++ (before ++ (text a ++ s)))
  next_of_stop {r : List Char} (hr : Stop r) : Next r
  first {a : α} {s r : List Char} (ha : Element a) (hs : Next s) (hr : Stop r) :
    before ++ (text a ++ s) ≠ r
  further {a : α} {s r : List Char} (ha : Element a) (hs : Next s) (hr : Stop r) :
    separator ++ (before ++ (text a ++ s)) ≠ r

namespace Separated

variable {α : Type} {text : α → List Char} {separator before : List Char}
  {Element : α → Prop} {Next Stop : List Char → Prop} {as₁ as₂ : List α} {r₁ r₂ : List Char}

theorem next_restChars (sep : Separated text separator before Element Next Stop) {as : List α}
    (has : ∀ a ∈ as, Element a) {r : List Char} (hr : Stop r) :
    Next (restChars separator before [] (as.map text) ++ r) := by
  cases as with
  | nil => exact sep.next_of_stop hr
  | cons a as =>
    simp only [List.map_cons, restChars, List.append_assoc]
    exact sep.next_further _ (has a (by simp))

/-- The further elements of two lists are told apart when single elements are. -/
theorem restChars_unique (sep : Separated text separator before Element Next Stop)
    (item : ∀ a₁ ∈ as₁, ∀ a₂ ∈ as₂, ∀ s₁ s₂, Next s₁ → Next s₂ →
      text a₁ ++ s₁ = text a₂ ++ s₂ → a₁ = a₂ ∧ s₁ = s₂)
    (h₁ : ∀ a ∈ as₁, Element a) (h₂ : ∀ a ∈ as₂, Element a) (hr₁ : Stop r₁) (hr₂ : Stop r₂)
    (h : restChars separator before [] (as₁.map text) ++ r₁ =
      restChars separator before [] (as₂.map text) ++ r₂) : as₁ = as₂ ∧ r₁ = r₂ := by
  induction as₁ generalizing as₂ with
  | nil =>
    cases as₂ with
    | nil => exact ⟨rfl, h⟩
    | cons a₂ as₂ =>
      rw [List.forall_mem_cons] at h₂
      simp only [List.map_nil, List.map_cons, restChars, List.nil_append, List.append_assoc] at h
      exact absurd h.symm (sep.further h₂.1 (sep.next_restChars h₂.2 hr₂) hr₁)
  | cons a₁ as₁ ih =>
    rw [List.forall_mem_cons] at h₁
    cases as₂ with
    | nil =>
      simp only [List.map_nil, List.map_cons, restChars, List.nil_append, List.append_assoc] at h
      exact absurd h (sep.further h₁.1 (sep.next_restChars h₁.2 hr₁) hr₂)
    | cons a₂ as₂ =>
      rw [List.forall_mem_cons] at h₂
      simp only [List.map_cons, restChars, List.nil_append, List.append_assoc,
        List.append_cancel_left_eq] at h
      obtain ⟨rfl, hrest⟩ := item a₁ (by simp) a₂ (by simp) _ _ (sep.next_restChars h₁.2 hr₁)
        (sep.next_restChars h₂.2 hr₂) h
      obtain ⟨rfl, hr⟩ := ih (fun b₁ hb₁ b₂ hb₂ => item b₁ (by simp [hb₁]) b₂ (by simp [hb₂]))
        h₁.2 h₂.2 hrest
      exact ⟨rfl, hr⟩

/-- Two lists are told apart when their elements are. -/
theorem listChars_unique (sep : Separated text separator before Element Next Stop)
    (item : ∀ a₁ ∈ as₁, ∀ a₂ ∈ as₂, ∀ s₁ s₂, Next s₁ → Next s₂ →
      text a₁ ++ s₁ = text a₂ ++ s₂ → a₁ = a₂ ∧ s₁ = s₂)
    (h₁ : ∀ a ∈ as₁, Element a) (h₂ : ∀ a ∈ as₂, Element a) (hr₁ : Stop r₁) (hr₂ : Stop r₂)
    (h : listChars separator before [] (as₁.map text) ++ r₁ =
      listChars separator before [] (as₂.map text) ++ r₂) : as₁ = as₂ ∧ r₁ = r₂ := by
  cases as₁ with
  | nil =>
    cases as₂ with
    | nil => exact ⟨rfl, h⟩
    | cons a₂ as₂ =>
      rw [List.forall_mem_cons] at h₂
      simp only [List.map_nil, List.map_cons, listChars, List.nil_append, List.append_assoc] at h
      exact absurd h.symm (sep.first h₂.1 (sep.next_restChars h₂.2 hr₂) hr₁)
  | cons a₁ as₁ =>
    cases as₂ with
    | nil =>
      rw [List.forall_mem_cons] at h₁
      simp only [List.map_nil, List.map_cons, listChars, List.nil_append, List.append_assoc] at h
      exact absurd h (sep.first h₁.1 (sep.next_restChars h₁.2 hr₁) hr₂)
    | cons a₂ as₂ =>
      -- A separator in front makes the first element one of the further ones.
      apply sep.restChars_unique item h₁ h₂ hr₁ hr₂
      rw [List.map_cons, List.map_cons, restChars_cons, restChars_cons, List.append_assoc,
        List.append_assoc]
      exact congrArg (separator ++ ·) h

end Separated

/-! ## How texts begin -/

/-- The text begins like a head, or like a minus with a head behind it. -/
def BeginsSpine (t : List Char) : Prop :=
  ∃ c s, t = c :: s ∧
    (beginsHead c = true ∨ c = '-' ∧ ∃ d s', s = d :: s' ∧ beginsHead d = true)

section

variable {P : Node → Prop}

theorem Head.Legible.cons (hP : Readable P) {head : Head} (h : head.Legible P) :
    ∃ c s, head.chars = c :: s ∧ beginsHead c = true := by
  cases head with
  | word w =>
    obtain ⟨c, s, hw, hc⟩ := IsWord.cons h
    exact ⟨c, s, hw, by simp [beginsHead, hc]⟩
  | group e => exact ⟨'(', _, Expr.chars_group hP h.1 h.2, rfl⟩

theorem Spine.Legible.begins (hP : Readable P) {s : Spine} (h : s.Legible P) (r : List Char) :
    BeginsSpine (s.chars ++ r) := by
  obtain ⟨c, t, hhead, hc⟩ := h.head.cons hP
  have hchars : s.chars ++ r =
      signChars s.minus ++ c :: (t ++ (s.suffixes.flatMap Suffix.chars ++ r)) := by
    simp [Spine.chars, hhead]
  rw [hchars]
  cases s.minus with
  | false => exact ⟨c, _, rfl, .inl hc⟩
  | true => exact ⟨'-', _, rfl, .inr ⟨rfl, c, _, rfl, hc⟩⟩

theorem Expr.begins (hP : Readable P) {e : Expr} (h : e.All P) (r : List Char) :
    BeginsSpine (e.chars ++ r) :=
  e.chars_spine ▸ (Expr.spine_legible hP h).begins hP r

theorem Ty.begins (hP : Readable P) {ty : Ty} (h : ty.All P) (r : List Char) :
    BeginsSpine (ty.chars ++ r) :=
  ty.chars_spine ▸ (Ty.spine_legible hP h).begins hP r

theorem BeginsSpine.ne_between {t sym r : List Char} (h : BeginsSpine t) (hsym : Between sym) :
    t ≠ sym ++ ' ' :: r := by
  obtain ⟨c, s, rfl, hc⟩ := h
  obtain ⟨-, d, s', rfl, hd, hminus⟩ := hsym
  rintro ⟨⟩
  rcases hc with hc | ⟨rfl, x, s'', hs, hx⟩
  · rw [hd] at hc
    cases hc
  · -- A minus between operands has a space or `=` behind it, and no head begins so.
    rcases hminus rfl with rfl | rfl
    · cases hs
      cases hx
    · cases hs
      cases hx

/-- The symbols with which a group may open. -/
def openings : List (List Char) := [['+'], ['!'], ['~'], ['+', '+'], ['-', '-']]

theorem Expr.opening_mem (e : Expr) : e.opening = [] ∨ e.opening ∈ openings := by
  cases e with
  | unary op e => cases op <;> simp [Expr.opening, openings, UnaryOp.followsOperand, UnaryOp.symbol]
  | _ => exact .inl rfl

theorem BeginsSpine.ne_opening {t o r : List Char} (h : BeginsSpine t) (ho : o ∈ openings) :
    o ++ r ≠ t := by
  obtain ⟨c, s, rfl, hc⟩ := h
  simp only [openings, List.mem_cons, List.not_mem_nil, or_false] at ho
  rcases ho with rfl | rfl | rfl | rfl | rfl <;> rintro ⟨⟩ <;>
    rcases hc with hc | ⟨hc, d, s', hs, hd⟩ <;> cases hc
  cases hs
  cases hd

/-- Two openings are told apart by what follows them: no operand begins like an opening. -/
theorem opening_unique {e₁ e₂ : Expr} {t₁ t₂ : List Char} (h₁ : BeginsSpine t₁)
    (h₂ : BeginsSpine t₂) (h : e₁.opening ++ t₁ = e₂.opening ++ t₂) :
    e₁.opening = e₂.opening ∧ t₁ = t₂ := by
  -- Of the openings only `+` begins another one, and an operand behind it would begin with `+`.
  have hplus₁ : ∀ r, t₁ ≠ '+' :: r := fun r h => h₁.ne_opening (o := ['+']) (by decide) h.symm
  have hplus₂ : ∀ r, '+' :: r ≠ t₂ := fun r h => h₂.ne_opening (o := ['+']) (by decide) h
  rcases e₁.opening_mem with ho₁ | ho₁ <;> rcases e₂.opening_mem with ho₂ | ho₂
  · rw [ho₁, ho₂] at h ⊢
    exact ⟨rfl, h⟩
  · rw [ho₁] at h
    exact absurd h.symm (h₁.ne_opening ho₂)
  · rw [ho₂] at h
    exact absurd h (h₂.ne_opening ho₁)
  · simp only [openings, List.mem_cons, List.not_mem_nil, or_false] at ho₁ ho₂
    rcases ho₁ with ho₁ | ho₁ | ho₁ | ho₁ | ho₁ <;>
      rcases ho₂ with ho₂ | ho₂ | ho₂ | ho₂ | ho₂ <;>
      simp_all

theorem BeginsSpine.ne_cons {t r : List Char} {c : Char} (h : BeginsSpine t)
    (hc : beginsHead c = false) (hminus : c ≠ '-') : t ≠ c :: r := by
  obtain ⟨d, s, rfl, hd⟩ := h
  rintro ⟨⟩
  rcases hd with hd | ⟨hd, -⟩
  · rw [hc] at hd
    cases hd
  · exact hminus hd

end

/-! ## Reading a text in one way -/

/-- The characters with which an expression may go on. -/
def continuesExpr (c : Char) : Bool := isWordChar c || c == '(' || c == '['

theorem Stops.word {r : List Char} (h : Stops continuesExpr r) : Stops isWordChar r :=
  h.imp (by simp +contextual [continuesExpr])

/-- Spines of fewer characters than the bound are told apart from all others, wherever something
follows that does not continue an expression. -/
def ReadsBelow (P : Node → Prop) (n : Nat) : Prop :=
  ∀ (s₁ s₂ : Spine) (r₁ r₂ : List Char), s₁.Legible P → s₂.Legible P → s₁.chars.length < n →
    Stops continuesExpr r₁ → Stops continuesExpr r₂ → s₁.chars ++ r₁ = s₂.chars ++ r₂ →
    s₁ = s₂ ∧ r₁ = r₂

/-- A list between commas ends at the parenthesis, when its elements begin as operands do. -/
theorem separated_commas {α : Type} {text : α → List Char} {Element : α → Prop}
    {p : Char → Bool} (hcomma : p ',' = false) (hparenthesis : p ')' = false)
    (hbegins : ∀ a, Element a → ∀ s, BeginsSpine (text a ++ s)) :
    Separated text [',', ' '] [] Element (Stops p) (fun r => ∃ s, r = ')' :: s) where
  next_further s _ := Stops.cons _ hcomma
  next_of_stop := by
    rintro r ⟨s, rfl⟩
    exact Stops.cons s hparenthesis
  first := by
    rintro a s r ha - ⟨s', rfl⟩
    exact (hbegins a ha s).ne_cons rfl (by decide)
  further := by
    rintro a s r - - ⟨s', rfl⟩ h
    cases h

theorem Closing.Legible.stops {P : Node → Prop} {c : Closing} (h : c.Legible P) (r : List Char) :
    Stops continuesExpr (c.chars ++ r) := by
  cases c with
  | symbol s =>
    simp only [Closing.Legible, List.mem_cons, List.not_mem_nil, or_false] at h
    rcases h with rfl | rfl | rfl <;> exact Stops.cons _ rfl
  | field | operand | between => exact Stops.cons _ rfl

theorem length_le_listChars {t : List Char} {ts : List (List Char)} (ht : t ∈ ts)
    (separator before after : List Char) :
    t.length ≤ (listChars separator before after ts).length := by
  induction ts with
  | nil => cases ht
  | cons u us ih =>
    simp only [listChars, List.length_append]
    rcases List.mem_cons.mp ht with rfl | ht
    · omega
    · have hrest := ih ht
      cases us with
      | nil => cases ht
      | cons v vs =>
        rw [restChars_cons, List.length_append]
        omega

theorem Suffix.length_lt_of_mem {x : Suffix} {e : Expr} (h : e ∈ x.parts) :
    e.chars.length < x.chars.length := by
  cases x with
  | args es =>
    have hmem : e.chars ∈ Expr.texts es := Expr.texts_eq_map es ▸ List.mem_map_of_mem h
    have hlen := length_le_listChars hmem [',', ' '] [] []
    simp only [Suffix.chars, List.length_cons, List.length_append]
    omega
  | item idx =>
    rw [Suffix.parts, List.mem_singleton] at h
    simp only [Suffix.chars, h, List.length_cons, List.length_append]
    omega

/-- Two operators between operands are told apart, with what follows them. -/
theorem Between.unique {sym₁ sym₂ r₁ r₂ : List Char} (h₁ : Between sym₁) (h₂ : Between sym₂)
    (h : sym₁ ++ ' ' :: r₁ = sym₂ ++ ' ' :: r₂) : sym₁ = sym₂ ∧ r₁ = r₂ := by
  obtain ⟨hsym, hr⟩ := run_unique h₁.1 h₂.1 (Stops.cons r₁ rfl) (Stops.cons r₂ rfl) h
  exact ⟨hsym, (List.cons.inj hr).2⟩

/-- A sign is told apart from the head behind it. -/
theorem signChars_unique {minus₁ minus₂ : Bool} {t₁ t₂ r₁ r₂ : List Char}
    (h₁ : ∃ c s, t₁ = c :: s ∧ beginsHead c = true) (h₂ : ∃ c s, t₂ = c :: s ∧ beginsHead c = true)
    (h : signChars minus₁ ++ (t₁ ++ r₁) = signChars minus₂ ++ (t₂ ++ r₂)) :
    minus₁ = minus₂ ∧ t₁ ++ r₁ = t₂ ++ r₂ := by
  obtain ⟨c₁, s₁, rfl, hc₁⟩ := h₁
  obtain ⟨c₂, s₂, rfl, hc₂⟩ := h₂
  cases minus₁ <;> cases minus₂
  · exact ⟨rfl, h⟩
  · rw [(List.cons.inj h).1] at hc₁
    cases hc₁
  · rw [← (List.cons.inj h).1] at hc₂
    cases hc₂
  · exact ⟨rfl, (List.cons.inj h).2⟩

theorem stops_suffixes {r : List Char} (xs : List Suffix) (hr : Stops continuesExpr r) :
    Stops isWordChar (xs.flatMap Suffix.chars ++ r) := by
  cases xs with
  | nil => exact hr.word
  | cons x xs => cases x <;> exact Stops.cons _ rfl

namespace ReadsBelow

variable {P : Node → Prop} {n : Nat} {r₁ r₂ : List Char}

theorem expr (ih : ReadsBelow P n) (hP : Readable P) {e₁ e₂ : Expr} (h₁ : e₁.All P)
    (h₂ : e₂.All P) (hlen : e₁.chars.length < n) (hr₁ : Stops continuesExpr r₁)
    (hr₂ : Stops continuesExpr r₂) (h : e₁.chars ++ r₁ = e₂.chars ++ r₂) :
    e₁ = e₂ ∧ r₁ = r₂ := by
  rw [← e₁.chars_spine] at h hlen
  rw [← e₂.chars_spine] at h
  obtain ⟨hspine, hr⟩ := ih _ _ _ _ (Expr.spine_legible hP h₁) (Expr.spine_legible hP h₂) hlen
    hr₁ hr₂ h
  exact ⟨Expr.spine_inj hP h₁ h₂ hspine, hr⟩

theorem suffix (ih : ReadsBelow P n) (hP : Readable P) {x₁ x₂ : Suffix}
    (h₁ : ∀ e ∈ x₁.parts, e.All P) (h₂ : ∀ e ∈ x₂.parts, e.All P) (hlen : x₁.chars.length ≤ n)
    (h : x₁.chars ++ r₁ = x₂.chars ++ r₂) : x₁ = x₂ ∧ r₁ = r₂ := by
  have short {e : Expr} (he : e ∈ x₁.parts) : e.chars.length < n := by
    have := Suffix.length_lt_of_mem he
    omega
  cases x₁ with
  | args es₁ =>
    cases x₂ with
    | item idx => cases h
    | args es₂ =>
      simp only [Suffix.chars, Expr.texts_eq_map, List.cons_append, List.append_assoc,
        List.nil_append, List.cons.injEq, true_and] at h
      obtain ⟨rfl, hr⟩ := (separated_commas rfl rfl fun _ => Expr.begins hP).listChars_unique
        (fun e₁ he₁ e₂ he₂ s₁ s₂ => ih.expr hP (h₁ e₁ he₁) (h₂ e₂ he₂) (short he₁))
        h₁ h₂ ⟨r₁, rfl⟩ ⟨r₂, rfl⟩ h
      exact ⟨rfl, (List.cons.inj hr).2⟩
  | item idx₁ =>
    cases x₂ with
    | args es => cases h
    | item idx₂ =>
      simp only [Suffix.chars, List.cons_append, List.append_assoc, List.nil_append,
        List.cons.injEq, true_and] at h
      obtain ⟨rfl, hr⟩ := ih.expr hP (h₁ idx₁ (by simp [Suffix.parts]))
        (h₂ idx₂ (by simp [Suffix.parts])) (short (by simp [Suffix.parts])) (Stops.cons _ rfl)
        (Stops.cons _ rfl) h
      exact ⟨rfl, (List.cons.inj hr).2⟩

theorem suffixes (ih : ReadsBelow P n) (hP : Readable P) {xs₁ xs₂ : List Suffix}
    (h₁ : ∀ x ∈ xs₁, ∀ e ∈ x.parts, e.All P) (h₂ : ∀ x ∈ xs₂, ∀ e ∈ x.parts, e.All P)
    (hlen : (xs₁.flatMap Suffix.chars).length ≤ n) (hr₁ : Stops continuesExpr r₁)
    (hr₂ : Stops continuesExpr r₂)
    (h : xs₁.flatMap Suffix.chars ++ r₁ = xs₂.flatMap Suffix.chars ++ r₂) :
    xs₁ = xs₂ ∧ r₁ = r₂ := by
  have clash {x : Suffix} {s r : List Char} (hr : Stops continuesExpr r) : x.chars ++ s ≠ r := by
    intro hx
    cases x with
    | args es => cases hr '(' _ hx.symm
    | item idx => cases hr '[' _ hx.symm
  induction xs₁ generalizing xs₂ with
  | nil =>
    cases xs₂ with
    | nil => exact ⟨rfl, h⟩
    | cons x₂ xs₂ =>
      rw [List.flatMap_nil, List.nil_append, List.flatMap_cons, List.append_assoc] at h
      exact absurd h.symm (clash hr₁)
  | cons x₁ xs₁ ihxs =>
    cases xs₂ with
    | nil =>
      rw [List.flatMap_nil, List.nil_append, List.flatMap_cons, List.append_assoc] at h
      exact absurd h (clash hr₂)
    | cons x₂ xs₂ =>
      rw [List.flatMap_cons, List.length_append] at hlen
      rw [List.flatMap_cons, List.flatMap_cons, List.append_assoc, List.append_assoc] at h
      obtain ⟨rfl, hrest⟩ := ih.suffix hP (h₁ x₁ (by simp)) (h₂ x₂ (by simp)) (by omega) h
      obtain ⟨rfl, hr⟩ := ihxs (fun y hy => h₁ y (by simp [hy])) (fun y hy => h₂ y (by simp [hy]))
        (by omega) hrest
      exact ⟨rfl, hr⟩

/-- An operand up to the closing parenthesis. -/
theorem operand (ih : ReadsBelow P n) (hP : Readable P) {e₁ e₂ : Expr} (h₁ : e₁.All P)
    (h₂ : e₂.All P) (hlen : e₁.chars.length < n)
    (h : e₁.chars ++ ')' :: r₁ = e₂.chars ++ ')' :: r₂) : e₁ = e₂ ∧ r₁ = r₂ := by
  obtain ⟨he, hr⟩ := ih.expr hP h₁ h₂ hlen (Stops.cons _ rfl) (Stops.cons _ rfl) h
  exact ⟨he, (List.cons.inj hr).2⟩

/-- What closes two groups is told apart. -/
theorem closing (ih : ReadsBelow P n) (hP : Readable P) {c₁ c₂ : Closing} (h₁ : c₁.Legible P)
    (h₂ : c₂.Legible P) (hlen : c₁.chars.length ≤ n) (h : c₁.chars ++ r₁ = c₂.chars ++ r₂) :
    c₁ = c₂ ∧ r₁ = r₂ := by
  have clash {s t r : List Char} {c : Char} (hs : (Closing.symbol s).Legible P)
      (hc : c = '.' ∨ c = ' ') : s ++ [')'] ++ r ≠ c :: t := by
    simp only [Closing.Legible, List.mem_cons, List.not_mem_nil, or_false] at hs
    rcases hs with rfl | rfl | rfl <;> rcases hc with rfl | rfl <;> simp
  cases c₁ with
  | symbol s₁ =>
    cases c₂ with
    | symbol s₂ =>
      simp only [Closing.Legible, List.mem_cons, List.not_mem_nil, or_false] at h₁ h₂
      rcases h₁ with rfl | rfl | rfl <;> rcases h₂ with rfl | rfl | rfl <;>
        simp_all [Closing.chars]
    | field | operand | between => exact absurd h (clash h₁ (by simp))
  | field e₁ =>
    cases c₂ with
    | symbol s₂ => exact absurd h.symm (clash h₂ (by simp))
    | operand | between => cases h
    | field e₂ =>
      simp only [Closing.chars, List.cons_append, List.append_assoc, List.nil_append,
        List.cons.injEq, true_and] at h
      simp only [Closing.chars, List.length_cons, List.length_append] at hlen
      obtain ⟨rfl, hr⟩ := ih.operand hP h₁ h₂ (by omega) h
      exact ⟨rfl, hr⟩
  | operand e₁ =>
    cases c₂ with
    | symbol s₂ => exact absurd h.symm (clash h₂ (by simp))
    | field => cases h
    | operand e₂ =>
      simp only [Closing.chars, List.cons_append, List.append_assoc, List.nil_append,
        List.cons.injEq, true_and] at h
      simp only [Closing.chars, List.length_cons, List.length_append] at hlen
      obtain ⟨rfl, hr⟩ := ih.operand hP h₁ h₂ (by omega) h
      exact ⟨rfl, hr⟩
    | between s₂ e₂ =>
      -- A cast against an operator: the operand behind the space does not begin like the operator.
      simp only [Closing.chars, List.cons_append, List.append_assoc, List.cons.injEq,
        true_and] at h
      exact absurd h ((Expr.begins hP h₁ _).ne_between h₂.1)
  | between s₁ e₁ =>
    cases c₂ with
    | symbol s₂ => exact absurd h.symm (clash h₂ (by simp))
    | field => cases h
    | operand e₂ =>
      simp only [Closing.chars, List.cons_append, List.append_assoc, List.cons.injEq,
        true_and] at h
      exact absurd h.symm ((Expr.begins hP h₂ _).ne_between h₁.1)
    | between s₂ e₂ =>
      simp only [Closing.chars, List.cons_append, List.append_assoc, List.nil_append,
        List.cons.injEq, true_and] at h
      simp only [Closing.chars, List.length_cons, List.length_append] at hlen
      obtain ⟨rfl, hrest⟩ := Between.unique h₁.1 h₂.1 h
      obtain ⟨rfl, hr⟩ := ih.operand hP h₁.2 h₂.2 (by omega) hrest
      exact ⟨rfl, hr⟩

theorem group (ih : ReadsBelow P n) (hP : Readable P) {e₁ e₂ : Expr}
    (hgroup₁ : e₁.isGroup = true) (hgroup₂ : e₂.isGroup = true) (h₁ : e₁.All P) (h₂ : e₂.All P)
    (hlen : e₁.chars.length ≤ n) (h : e₁.chars ++ r₁ = e₂.chars ++ r₂) : e₁ = e₂ ∧ r₁ = r₂ := by
  have hchars₁ := Expr.chars_group hP hgroup₁ h₁
  have hlead₁ := Expr.lead_legible hP hgroup₁ h₁
  have hlead₂ := Expr.lead_legible hP hgroup₂ h₂
  have hclosing₁ := Expr.closing_legible h₁
  have hclosing₂ := Expr.closing_legible h₂
  rw [hchars₁, Expr.chars_group hP hgroup₂ h₂] at h
  rw [hchars₁] at hlen
  simp only [List.length_cons, List.length_append] at hlen
  simp only [List.cons_append, List.append_assoc, List.cons.injEq, true_and] at h
  obtain ⟨hopening, h⟩ := opening_unique (hlead₁.begins hP _) (hlead₂.begins hP _) h
  -- The first operands may be of different kinds, an expression here and a type there: only their
  -- spines are compared.
  obtain ⟨hlead, h⟩ := ih _ _ _ _ hlead₁ hlead₂ (by omega) (hclosing₁.stops r₁)
    (hclosing₂.stops r₂) h
  obtain ⟨hclosing, hr⟩ := ih.closing hP hclosing₁ hclosing₂ (by omega) h
  exact ⟨Expr.group_inj hP hgroup₁ hgroup₂ h₁ h₂ hopening hlead hclosing, hr⟩

theorem head (ih : ReadsBelow P n) (hP : Readable P) {head₁ head₂ : Head} (h₁ : head₁.Legible P)
    (h₂ : head₂.Legible P) (hlen : head₁.chars.length ≤ n) (hr₁ : Stops isWordChar r₁)
    (hr₂ : Stops isWordChar r₂) (h : head₁.chars ++ r₁ = head₂.chars ++ r₂) :
    head₁ = head₂ ∧ r₁ = r₂ := by
  have clash {w t r : List Char} {e : Expr} (hw : IsWord w) (he : (Head.group e).Legible P) :
      w ++ t ≠ e.chars ++ r := by
    obtain ⟨c, s, rfl, hc⟩ := hw.cons
    rw [Expr.chars_group hP he.1 he.2]
    intro h
    rw [(List.cons.inj h).1] at hc
    cases hc
  cases head₁ with
  | word w₁ =>
    cases head₂ with
    | word w₂ =>
      obtain ⟨rfl, hr⟩ := IsWord.unique h₁ h₂ hr₁ hr₂ h
      exact ⟨rfl, hr⟩
    | group e₂ => exact absurd h (clash h₁ h₂)
  | group e₁ =>
    cases head₂ with
    | word w₂ => exact absurd h.symm (clash h₂ h₁)
    | group e₂ =>
      obtain ⟨rfl, hr⟩ := ih.group hP h₁.1 h₂.1 h₁.2 h₂.2 hlen h
      exact ⟨rfl, hr⟩

/-- The step of the induction. -/
theorem succ (ih : ReadsBelow P n) (hP : Readable P) : ReadsBelow P (n + 1) := by
  intro s₁ s₂ r₁ r₂ h₁ h₂ hlen hr₁ hr₂ h
  simp only [Spine.chars, List.length_append] at hlen
  simp only [Spine.chars, List.append_assoc] at h
  obtain ⟨hminus, h⟩ := signChars_unique (h₁.head.cons hP) (h₂.head.cons hP) h
  obtain ⟨hhead, h⟩ := ih.head hP h₁.head h₂.head (by omega) (stops_suffixes _ hr₁)
    (stops_suffixes _ hr₂) h
  obtain ⟨hsuffixes, hr⟩ := ih.suffixes hP h₁.suffixes h₂.suffixes (by omega) hr₁ hr₂ h
  cases s₁
  cases s₂
  simp_all

end ReadsBelow

theorem readsBelow {P : Node → Prop} (hP : Readable P) (n : Nat) : ReadsBelow P n := by
  induction n with
  | zero =>
    intro s₁ s₂ r₁ r₂ _ _ hlen
    omega
  | succ n ih => exact ih.succ hP

section

variable {P : Node → Prop} {r₁ r₂ : List Char}

/-- Two spines are told apart, wherever something follows that does not continue an expression. -/
theorem Spine.unique (hP : Readable P) {s₁ s₂ : Spine} (h₁ : s₁.Legible P) (h₂ : s₂.Legible P)
    (hr₁ : Stops continuesExpr r₁) (hr₂ : Stops continuesExpr r₂)
    (h : s₁.chars ++ r₁ = s₂.chars ++ r₂) : s₁ = s₂ ∧ r₁ = r₂ :=
  readsBelow hP _ _ _ _ _ h₁ h₂ (Nat.lt_succ_self _) hr₁ hr₂ h

theorem Expr.unique (hP : Readable P) {e₁ e₂ : Expr} (h₁ : e₁.All P) (h₂ : e₂.All P)
    (hr₁ : Stops continuesExpr r₁) (hr₂ : Stops continuesExpr r₂)
    (h : e₁.chars ++ r₁ = e₂.chars ++ r₂) : e₁ = e₂ ∧ r₁ = r₂ :=
  (readsBelow hP _).expr hP h₁ h₂ (Nat.lt_succ_self _) hr₁ hr₂ h

theorem Ty.unique (hP : Readable P) {ty₁ ty₂ : Ty} (h₁ : ty₁.All P) (h₂ : ty₂.All P)
    (hr₁ : Stops continuesExpr r₁) (hr₂ : Stops continuesExpr r₂)
    (h : ty₁.chars ++ r₁ = ty₂.chars ++ r₂) : ty₁ = ty₂ ∧ r₁ = r₂ := by
  rw [← ty₁.chars_spine, ← ty₂.chars_spine] at h
  obtain ⟨hspine, hr⟩ :=
    Spine.unique hP (Ty.spine_legible hP h₁) (Ty.spine_legible hP h₂) hr₁ hr₂ h
  exact ⟨Ty.spine_inj hP h₁ h₂ hspine, hr⟩

/-- An expression and a type may have the same text, but then the same follows. -/
theorem Expr.unique_type (hP : Readable P) {e : Expr} {ty : Ty} (he : e.All P) (hty : ty.All P)
    (hr₁ : Stops continuesExpr r₁) (hr₂ : Stops continuesExpr r₂)
    (h : e.chars ++ r₁ = ty.chars ++ r₂) : r₁ = r₂ := by
  rw [← e.chars_spine, ← ty.chars_spine] at h
  exact (Spine.unique hP (Expr.spine_legible hP he) (Ty.spine_legible hP hty) hr₁ hr₂ h).2

end

/-! ## Printable expressions -/

/-- What a printable expression asks of a single node: a name is no word with a meaning of its own,
a payload is whole, a list of dimensions is not empty, and a minus is not written before another. -/
def Node.isPrintable : Node → Bool
  | .expr (.ident id) => isName id && !expressionWords.contains id
  | .expr (.const c) => c.isWhole
  | .expr (.unary .neg e) => e.render.toList.head? != some '-'
  | .type ⟨_, some []⟩ => false
  | _ => true

/-- An expression all of whose nodes are printable. -/
abbrev Expr.Printable (e : Expr) : Prop := e.All (·.isPrintable = true)

theorem readable_isPrintable : Readable (·.isPrintable = true) where
  name h := by simpa [Node.isPrintable] using h
  const h := h
  dims {ty} h := by
    obtain ⟨base, dims⟩ := ty
    rintro rfl
    cases h
  neg {e} h := by
    have hhead : e.render.toList.head? ≠ some '-' := by simpa [Node.isPrintable] using h.self
    rw [Expr.render, Node.render_toList, Node.chars, ← e.chars_spine] at hhead
    cases hminus : e.spine.minus with
    | false => rfl
    | true => simp [Spine.chars, signChars, hminus] at hhead

/-- Printable expressions with the same source text are the same. -/
theorem Expr.render_inj {e₁ e₂ : Expr} (h₁ : e₁.Printable) (h₂ : e₂.Printable)
    (h : e₁.render = e₂.render) : e₁ = e₂ := by
  have hchars : e₁.chars = e₂.chars := (Node.render_eq_iff (.expr e₁) (.expr e₂)).mp h
  apply (Expr.unique readable_isPrintable h₁ h₂ Stops.nil Stops.nil _).1
  rw [hchars]

/-- A negated literal and a negative one, and the least number of 64 bits, written once as itself
and once as the number that wraps around to it. -/
theorem Expr.render_inj_least_long :
    let e (value : Int) : Expr := .binary .subtract
      (.unary .neg (.index (.const ⟨.int, .int 5⟩) (.ident "i")))
      (.call (.ident "f") [.const ⟨.long, .int (.ofInt value)⟩, .const ⟨.bool, .int 1⟩,
        .cast ⟨.reference "t", some [.const ⟨.byte, .int (-1)⟩]⟩ (.unary .postDec (.ident "x"))])
    (e (-9223372036854775808)).Printable ∧ (e 9223372036854775808).Printable ∧
      (e 9223372036854775808).render =
        "((-5I[i]) - f(-9223372036854775808L, true, (t[-1B] (x--))))" ∧
      e (-9223372036854775808) = e 9223372036854775808 :=
  ⟨by decide +kernel, by decide +kernel, by decide +kernel,
    Expr.render_inj (by decide +kernel) (by decide +kernel) (by decide +kernel)⟩

end SyntaxForest
