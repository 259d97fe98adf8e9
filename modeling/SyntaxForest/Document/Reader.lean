import SyntaxForest.Document.Fault

/-!
# Readers

A reader takes characters off the front of a text and makes a value of them, or finds a fault. It
always takes at least one character when it succeeds, so a reader can be repeated without end in
view: `iterate` runs one step after the other until a step says that it was the last.

Every reader of documents is put together from the few in this module. They look at no more than one
character before they decide, and a fault is final: there is no way back to try something else.
-/

namespace SyntaxForest.Document

/-- A value and the text behind it, or a fault. -/
abbrev Outcome (α : Type) := Except Fault (α × List Char)

/-- A reader of values of a type. -/
structure Reader (α : Type) where
  run : List Char → Outcome α
  shorter : ∀ {s : List Char} {a : α} {rest : List Char},
    run s = .ok (a, rest) → rest.length < s.length

/-- Whether a character may stand between the parts of a document. -/
def isBlank (c : Char) : Bool := c = ' ' || c = '\n' || c = '\t' || c = '\r'

/-- The text from its first character that is not blank. -/
def skipBlanks : List Char → List Char
  | [] => []
  | c :: s => if isBlank c then skipBlanks s else c :: s

theorem skipBlanks_length_le (s : List Char) : (skipBlanks s).length ≤ s.length := by
  induction s with
  | nil => simp [skipBlanks]
  | cons c s ih =>
    rw [skipBlanks]
    split
    · exact Nat.le_succ_of_le ih
    · exact Nat.le_refl _

namespace Reader

variable {α β σ : Type}

/-- Reads nothing and finds a fault. -/
def fail (fault : Fault) : Reader α where
  run _ := .error fault
  shorter h := nomatch h

/-- Takes one character, and makes a value of it or finds a fault in it. -/
def next (atEnd : Fault) (take : Char → Except Fault α) : Reader α where
  run
    | [] => .error atEnd
    | c :: s => (take c).map (·, s)
  shorter := by
    intro s a rest h
    cases s with
    | nil => nomatch h
    | cons c s =>
      cases hc : take c with
      | error e => simp [hc, Except.map] at h
      | ok v => simp_all [Except.map]

/-- Chooses a reader by the next character, which stays in the text. -/
def look (atEnd : Fault) (choose : Char → Reader α) : Reader α where
  run
    | [] => .error atEnd
    | c :: s => (choose c).run (c :: s)
  shorter := by
    intro s a rest h
    cases s with
    | nil => nomatch h
    | cons c s => exact (choose c).shorter h

/-- Passes over blanks before it reads. -/
def afterBlanks (p : Reader α) : Reader α where
  run s := p.run (skipBlanks s)
  shorter h := Nat.lt_of_lt_of_le (p.shorter h) (skipBlanks_length_le _)

/-- Chooses a reader by the next character behind blanks. -/
def peek (atEnd : Fault) (choose : Char → Reader α) : Reader α :=
  (look atEnd choose).afterBlanks

/-- What becomes of a value that was read: it is made into the result, it is refused, or there is
more to read. -/
inductive Next (β : Type)
  | done (value : β)
  | refuse (fault : Fault)
  | more (p : Reader β)

/-- Goes on as the value that was read demands. -/
def follow (p : Reader α) (q : α → Next β) : Reader β where
  run s := match p.run s with
    | .error e => .error e
    | .ok (a, rest) => match q a with
      | .done b => .ok (b, rest)
      | .refuse e => .error e
      | .more r => r.run rest
  shorter := by
    intro s b rest h
    cases hp : p.run s with
    | error e => simp [hp] at h
    | ok result =>
      have hlt := p.shorter hp
      cases hq : q result.1 with
      | done b' =>
        simp only [hp, hq, Except.ok.injEq, Prod.mk.injEq] at h
        exact h.2 ▸ hlt
      | refuse e => simp [hp, hq] at h
      | more r =>
        simp only [hp, hq] at h
        exact Nat.lt_trans (r.shorter h) hlt

/-- Makes another value of the one that was read. -/
def map (f : α → β) (p : Reader α) : Reader β := p.follow fun a => .done (f a)

/-- Goes on with a reader that depends on the value that was read. -/
def bind (p : Reader α) (q : α → Reader β) : Reader β := p.follow fun a => .more (q a)

/-- Reads one thing, then another, and keeps the second. -/
def andThen (p : Reader α) (q : Reader β) : Reader β := p.bind fun _ => q

/-- Reads one thing, then another, and keeps the first. -/
def andClose (p : Reader α) (q : Reader Unit) : Reader α := p.bind fun a => q.map fun _ => a

/-- Takes the next character, whatever it is. -/
def anyChar (atEnd : Fault) : Reader Char := next atEnd .ok

/-- Takes the given character from the next place that is not blank. -/
def symbol (c : Char) (atEnd otherwise : Fault) : Reader Unit :=
  (next atEnd fun d => if d = c then .ok () else .error otherwise).afterBlanks

/-- Runs steps from a state until one of them ends with a result. -/
def iterateRun (step : σ → Reader (σ ⊕ α)) (state : σ) (s : List Char) : Outcome α :=
  match h : (step state).run s with
  | .error e => .error e
  | .ok (.inr a, rest) => .ok (a, rest)
  | .ok (.inl state', rest) =>
    have := (step state).shorter h
    iterateRun step state' rest
termination_by s.length

theorem iterateRun_length_lt (step : σ → Reader (σ ⊕ α)) (state : σ) (s : List Char)
    {a : α} {rest : List Char} (h : iterateRun step state s = .ok (a, rest)) :
    rest.length < s.length := by
  fun_induction iterateRun step state s with
  | case1 => nomatch h
  | case2 state s b r hr =>
    simp only [Except.ok.injEq, Prod.mk.injEq] at h
    exact h.2 ▸ (step state).shorter hr
  | case3 state s state' r hr hlt ih => exact Nat.lt_trans (ih h) hlt

/-- Reads in steps, each from the state that the step before it left behind. -/
def iterate (step : σ → Reader (σ ⊕ α)) (state : σ) : Reader α where
  run := iterateRun step state
  shorter h := iterateRun_length_lt step state _ h

end Reader

end SyntaxForest.Document
