import SyntaxForest.Document.Number
import SyntaxForest.Document.Token

/-!
# Passing over a value

The value of a member that nobody asked for is only looked at for its form: brackets must match,
however deep they are nested, numbers may be of any size, and what escapes stand for does not
matter. The open arrays and objects around the current place are kept in a list, innermost first.
-/

namespace SyntaxForest.Document

/-! ## Numbers -/

/-- At least one digit, and all that follow. -/
def skipDigits (s : List Char) : Except Fault (List Char) :=
  if startsWithDigit s then .ok (dropDigits s).2 else .error .invalidNumber

/-- The digits of an exponent behind its letter and the sign that it may have. -/
def skipSigned : List Char → Except Fault (List Char)
  | [] => .error .invalidNumber
  | c :: s => if c = '+' || c = '-' then skipDigits s else skipDigits (c :: s)

/-- The exponent that a number may have. -/
def skipExponent : List Char → Except Fault (List Char)
  | [] => .ok []
  | c :: s => if c = 'e' || c = 'E' then skipSigned s else .ok (c :: s)

/-- What may follow the integer part of a number. -/
def skipAfterWhole : List Char → Except Fault (List Char)
  | [] => .ok []
  | c :: s =>
    if c = '.' then
      match skipDigits s with
      | .error e => .error e
      | .ok rest => skipExponent rest
    else skipExponent (c :: s)

/-- A number from behind its sign. -/
def skipUnsigned : List Char → Except Fault (List Char)
  | [] => .error .invalidNumber
  | c :: s =>
    if c = '0' then
      if startsWithDigit s then .error .invalidNumber else skipAfterWhole s
    else if c.isDigit then skipAfterWhole (dropDigits s).2
    else .error .invalidNumber

theorem skipDigits_length_le {s rest : List Char} (h : skipDigits s = .ok rest) :
    rest.length ≤ s.length := by
  rw [skipDigits] at h
  split at h
  · simp only [Except.ok.injEq] at h
    exact h ▸ dropDigits_length_le s
  · nomatch h

theorem skipSigned_length_le {s rest : List Char} (h : skipSigned s = .ok rest) :
    rest.length ≤ s.length := by
  cases s with
  | nil => nomatch h
  | cons c s =>
    rw [skipSigned] at h
    split at h
    · exact Nat.le_succ_of_le (skipDigits_length_le h)
    · exact skipDigits_length_le h

theorem skipExponent_length_le {s rest : List Char} (h : skipExponent s = .ok rest) :
    rest.length ≤ s.length := by
  cases s with
  | nil => simp_all [skipExponent]
  | cons c s =>
    rw [skipExponent] at h
    split at h
    · exact Nat.le_succ_of_le (skipSigned_length_le h)
    · simp only [Except.ok.injEq] at h
      exact h ▸ Nat.le_refl _

theorem skipAfterWhole_length_le {s rest : List Char} (h : skipAfterWhole s = .ok rest) :
    rest.length ≤ s.length := by
  cases s with
  | nil => simp_all [skipAfterWhole]
  | cons c s =>
    rw [skipAfterWhole] at h
    split at h
    · split at h
      · nomatch h
      · rename_i r hr
        exact Nat.le_succ_of_le
          (Nat.le_trans (skipExponent_length_le h) (skipDigits_length_le hr))
    · exact skipExponent_length_le h

theorem skipUnsigned_length_lt {s rest : List Char} (h : skipUnsigned s = .ok rest) :
    rest.length < s.length := by
  cases s with
  | nil => nomatch h
  | cons c s =>
    rw [skipUnsigned] at h
    split at h
    · split at h
      · nomatch h
      · exact Nat.lt_succ_of_le (skipAfterWhole_length_le h)
    · split at h
      · exact Nat.lt_succ_of_le
          (Nat.le_trans (skipAfterWhole_length_le h) (dropDigits_length_le s))
      · nomatch h

namespace Reader

/-- Passes over a number that has no sign, or from behind its sign. -/
def skippedUnsigned : Reader Unit where
  run s := (skipUnsigned s).map ((), ·)
  shorter := by
    intro s a rest h
    cases hs : skipUnsigned s with
    | error e => simp [hs, Except.map] at h
    | ok r =>
      simp only [hs, Except.map, Except.ok.injEq, Prod.mk.injEq] at h
      exact h.2 ▸ skipUnsigned_length_lt hs

/-! ## Values -/

/-- An array or object that is still open. -/
inductive Frame
  | array
  | object
  deriving DecidableEq

/-- Where a skipped value goes on, inside which open arrays and objects: at a value, behind an
opening bracket, or behind a value. -/
inductive Place
  | value (frames : List Frame)
  | opened (frame : Frame) (frames : List Frame)
  | behind (frame : Frame) (frames : List Frame)

/-- A value has ended: there is more to pass over if it stood inside another. -/
def settle : List Frame → Place ⊕ Unit
  | [] => .inr ()
  | frame :: frames => .inl (.behind frame frames)

/-- Takes a colon behind a key. -/
def colon : Reader Unit := symbol ':' .endInObject .expectedColon

/-- Takes the closing bracket that has been seen. -/
def close (frames : List Frame) : Reader (Place ⊕ Unit) :=
  (anyChar .endInValue).map fun _ => settle frames

/-- Passes over a key and its colon. -/
def skippedKey : Reader Unit :=
  peek .endInObject fun c =>
    if c = '"' then (anyChar .endInObject).andThen (skippedText.andThen colon)
    else fail .keyNotText

/-- Passes over a value without parts, or the opening bracket of any other. -/
def skipValue (frames : List Frame) : Reader (Place ⊕ Unit) :=
  let settled (p : Reader Unit) : Reader (Place ⊕ Unit) := p.map fun _ => settle frames
  let opening (frame : Frame) : Reader (Place ⊕ Unit) :=
    (anyChar .endInValue).map fun _ => .inl (.opened frame frames)
  peek .endInValue fun c =>
    if c = 'n' then settled nullWord
    else if c = 't' then settled trueWord
    else if c = 'f' then settled falseWord
    else if c = '-' then settled ((anyChar .endInValue).andThen skippedUnsigned)
    else if c.isDigit then settled skippedUnsigned
    else if c = '"' then settled ((anyChar .endInValue).andThen skippedText)
    else if c = '[' then opening .array
    else if c = '\x7b' then opening .object
    else fail .expectedValue

/-- Passes over the next part of a skipped value. -/
def skipStep : Place → Reader (Place ⊕ Unit)
  | .value frames => skipValue frames
  | .opened .array frames =>
    peek .endInList fun c => if c = ']' then close frames else skipValue (.array :: frames)
  | .opened .object frames =>
    peek .endInObject fun c =>
      if c = '\x7d' then close frames
      else skippedKey.map fun _ => .inl (.value (.object :: frames))
  | .behind .array frames =>
    peek .endInList fun c =>
      if c = ',' then (anyChar .endInList).map fun _ => .inl (.value (.array :: frames))
      else if c = ']' then close frames
      else fail .expectedListCommaOrEnd
  | .behind .object frames =>
    peek .endInObject fun c =>
      if c = ',' then
        ((anyChar .endInObject).andThen skippedKey).map fun _ => .inl (.value (.object :: frames))
      else if c = '\x7d' then close frames
      else fail .expectedObjectCommaOrEnd

/-- Passes over a value. -/
def skip : Reader Unit := iterate skipStep (.value [])

end Reader

end SyntaxForest.Document
