import SyntaxForest.Document.Decode

/-!
# What a reader takes off a text

`Reader.read` forgets which fault a reader found, so that the readers of a document compose as
partial functions do. `Reader.Yields` is the contract of every reader of values: it takes exactly
the text of a value off the front, provided that what follows cannot be mistaken for the rest of a
number.
-/

namespace SyntaxForest.Document

/-! ## Blanks -/

/-- Characters that may stand between the parts of a document. -/
def Blank (s : List Char) : Prop := ∀ c ∈ s, isBlank c = true

theorem Blank.nil : Blank [] := fun _ hc => nomatch hc

@[simp] theorem skipBlanks_nil : skipBlanks [] = [] := rfl

theorem skipBlanks_cons {c : Char} (s : List Char) (h : isBlank c = false) :
    skipBlanks (c :: s) = c :: s := by
  simp [skipBlanks, h]

theorem skipBlanks_append {blanks : List Char} (h : Blank blanks) (s : List Char) :
    skipBlanks (blanks ++ s) = skipBlanks s := by
  induction blanks with
  | nil => rfl
  | cons c blanks ih =>
    simp only [List.cons_append, skipBlanks, h c (by simp), if_true]
    exact ih fun d hd => h d (by simp [hd])

theorem isBlank_of_isDigit {c : Char} (h : c.isDigit = true) : isBlank c = false := by
  rw [Bool.eq_false_iff]
  intro hc
  simp only [isBlank, Bool.or_eq_true, decide_eq_true_eq] at hc
  rcases hc with ((rfl | rfl) | rfl) | rfl <;> cases h

/-- No number goes on with the first character of the text. -/
def EndsNumber (rest : List Char) : Prop :=
  ∀ c s, rest = c :: s → c.isDigit = false ∧ c ≠ '.' ∧ c ≠ 'e' ∧ c ≠ 'E'

theorem EndsNumber.nil : EndsNumber [] := by
  intro c s h
  cases h

theorem EndsNumber.cons {c : Char} {s : List Char} (hd : c.isDigit = false)
    (hp : c ≠ '.') (he : c ≠ 'e') (hE : c ≠ 'E') : EndsNumber (c :: s) := by
  intro c' s' h
  cases h
  exact ⟨hd, hp, he, hE⟩

theorem EndsNumber.append {blanks s : List Char} (hb : Blank blanks) (h : EndsNumber s) :
    EndsNumber (blanks ++ s) := by
  cases blanks with
  | nil => exact h
  | cons c blanks =>
    have hblank := hb c List.mem_cons_self
    simp only [isBlank, Bool.or_eq_true, decide_eq_true_eq] at hblank
    rcases hblank with ((rfl | rfl) | rfl) | rfl <;>
      exact .cons (by decide) (by decide) (by decide) (by decide)

theorem EndsNumber.of_blank {blanks : List Char} (hb : Blank blanks) : EndsNumber blanks :=
  blanks.append_nil ▸ .append hb .nil

namespace Reader

variable {α β σ : Type}

/-- What a reader makes of a text and what it leaves, if it finds no fault. -/
def read (p : Reader α) (s : List Char) : Option (α × List Char) := (p.run s).toOption

/-! ## Equations -/

theorem read_next_cons (atEnd : Fault) (take : Char → Except Fault α) (c : Char)
    (s : List Char) :
    (next atEnd take).read (c :: s) = (take c).toOption.map (·, s) := by
  cases h : take c <;> simp [read, next, h, Except.map, Except.toOption]

@[simp] theorem read_anyChar (atEnd : Fault) (c : Char) (s : List Char) :
    (anyChar atEnd).read (c :: s) = some (c, s) := rfl

@[simp] theorem read_look (atEnd : Fault) (choose : Char → Reader α) (c : Char) (s : List Char) :
    (look atEnd choose).read (c :: s) = (choose c).read (c :: s) := rfl

theorem read_afterBlanks (p : Reader α) (s : List Char) :
    p.afterBlanks.read s = p.read (skipBlanks s) := rfl

/-- A reader that chooses by the next character finds it behind blanks. -/
theorem read_peek {atEnd : Fault} (choose : Char → Reader α) {blanks : List Char} {c : Char}
    (s : List Char) (hb : Blank blanks) (hc : isBlank c = false) :
    (peek atEnd choose).read (blanks ++ c :: s) = (choose c).read (c :: s) := by
  rw [peek, read_afterBlanks, skipBlanks_append hb, skipBlanks_cons s hc]
  rfl

theorem read_peek_cons {atEnd : Fault} (choose : Char → Reader α) {c : Char} (s : List Char)
    (hc : isBlank c = false) :
    (peek atEnd choose).read (c :: s) = (choose c).read (c :: s) := by
  rw [peek, read_afterBlanks, skipBlanks_cons s hc]
  rfl

/-- A character that was asked for is found behind blanks. -/
theorem read_symbol {atEnd otherwise : Fault} {blanks : List Char} {c : Char} (s : List Char)
    (hb : Blank blanks) (hc : isBlank c = false) :
    (symbol c atEnd otherwise).read (blanks ++ c :: s) = some ((), s) := by
  rw [symbol, read_afterBlanks, skipBlanks_append hb, skipBlanks_cons s hc, read_next_cons]
  simp [Except.toOption]

theorem read_follow (p : Reader α) (q : α → Next β) (s : List Char) :
    (p.follow q).read s = (p.read s).bind fun (a, rest) =>
      match q a with
      | .done b => some (b, rest)
      | .refuse _ => none
      | .more r => r.read rest := by
  cases hp : p.run s with
  | error e => simp [read, follow, hp, Except.toOption]
  | ok result =>
    cases hq : q result.1 <;> simp [read, follow, hp, hq, Except.toOption]

@[simp] theorem read_map (f : α → β) (p : Reader α) (s : List Char) :
    (p.map f).read s = (p.read s).map fun (a, rest) => (f a, rest) := by
  rw [map, read_follow]
  cases p.read s <;> rfl

@[simp] theorem read_bind (p : Reader α) (q : α → Reader β) (s : List Char) :
    (p.bind q).read s = (p.read s).bind fun (a, rest) => (q a).read rest := by
  rw [bind, read_follow]

@[simp] theorem read_andThen (p : Reader α) (q : Reader β) (s : List Char) :
    (p.andThen q).read s = (p.read s).bind fun (_, rest) => q.read rest := by
  rw [andThen, read_bind]

theorem read_anyChar_andThen (atEnd : Fault) (q : Reader β) (c : Char) (s : List Char) :
    ((anyChar atEnd).andThen q).read (c :: s) = q.read s := by
  simp

@[simp] theorem read_andClose (p : Reader α) (q : Reader Unit) (s : List Char) :
    (p.andClose q).read s =
      (p.read s).bind fun (a, rest) => (q.read rest).map fun (_, rest) => (a, rest) := by
  simp [andClose]

/-- One turn of a repeated step. -/
theorem read_iterate (step : σ → Reader (σ ⊕ α)) (state : σ) (s : List Char) :
    (iterate step state).read s = ((step state).read s).bind fun
      | (.inr a, rest) => some (a, rest)
      | (.inl state', rest) => (iterate step state').read rest := by
  rw [read, iterate]
  simp only
  rw [iterateRun]
  split
  · rename_i e h
    simp [read, h, Except.toOption]
  · rename_i a rest h
    simp [read, h, Except.toOption]
  · rename_i state' rest h
    simp [read, h, Except.toOption, iterate]

/-! ## Contracts -/

/-- The reader takes exactly the text `t` off the front of whatever ends a number, and makes a value
of it if `outcome` is one; if it is none, the reader finds a fault. -/
def Yields (p : Reader α) (t : List Char) (outcome : Option α) : Prop :=
  ∀ rest, EndsNumber rest → p.read (t ++ rest) = outcome.map (·, rest)

theorem Yields.map {p : Reader α} {t : List Char} {outcome : Option α}
    (h : p.Yields t outcome) (f : α → β) : (p.map f).Yields t (outcome.map f) := by
  intro rest hr
  rw [read_map, h rest hr]
  cases outcome <;> rfl

theorem Yields.fail {t : List Char} (fault : Fault) : (fail fault : Reader α).Yields t none := by
  intro rest _
  rfl

end Reader

/-! ## Blanks before a value -/

variable {α β : Type}

/-- A reader that passes over blanks in front of what it reads. -/
def PassesBlanks (p : Reader α) : Prop :=
  ∀ ⦃blanks⦄, Blank blanks → ∀ s, p.read (blanks ++ s) = p.read s

theorem PassesBlanks.peek (atEnd : Fault) (choose : Char → Reader α) :
    PassesBlanks (Reader.peek atEnd choose) := by
  intro blanks hb s
  rw [Reader.peek, Reader.read_afterBlanks, skipBlanks_append hb]
  rfl

theorem PassesBlanks.follow {p : Reader α} (h : PassesBlanks p) (q : α → Reader.Next β) :
    PassesBlanks (p.follow q) := by
  intro blanks hb s
  rw [Reader.read_follow, Reader.read_follow, h hb s]

theorem PassesBlanks.map {p : Reader α} (h : PassesBlanks p) (f : α → β) :
    PassesBlanks (p.map f) := h.follow _

end SyntaxForest.Document
