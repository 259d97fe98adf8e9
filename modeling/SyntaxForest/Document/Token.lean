import SyntaxForest.Document.Reader

/-!
# Words and quoted texts

The parts of a document that are made of letters. A quoted text is read from behind its opening
quote. In one that is kept, an escaped code point above the first plane is written as a pair of
surrogates, and a surrogate by itself is a fault; in one that is passed over, it is not looked at.
-/

namespace SyntaxForest.Document.Reader

/-! ## Words -/

/-- Takes exactly one character. -/
def letter (c : Char) : Reader Unit :=
  next .endInValue fun d => if d = c then .ok () else .error .expectedWord

/-- Takes exactly the characters of a word. -/
def word : Char → List Char → Reader Unit
  | c, [] => letter c
  | c, d :: rest => (letter c).andThen (word d rest)

/-- The word for a value that is not there. -/
def nullWord : Reader Unit := word 'n' ['u', 'l', 'l']

/-- The word for a truth value that holds. -/
def trueWord : Reader Unit := word 't' ['r', 'u', 'e']

/-- The word for a truth value that does not hold. -/
def falseWord : Reader Unit := word 'f' ['a', 'l', 's', 'e']

/-! ## Escapes -/

/-- The value of a hexadecimal digit in either case. -/
def hexDigit? (c : Char) : Option Nat :=
  if '0' ≤ c ∧ c ≤ '9' then some (c.toNat - '0'.toNat)
  else if 'a' ≤ c ∧ c ≤ 'f' then some (c.toNat - 'a'.toNat + 10)
  else if 'A' ≤ c ∧ c ≤ 'F' then some (c.toNat - 'A'.toNat + 10)
  else none

/-- The number written with four hexadecimal digits. -/
def hexNumber? (a b c d : Char) : Option Nat := do
  return (((← hexDigit? a) * 16 + (← hexDigit? b)) * 16 + (← hexDigit? c)) * 16 + (← hexDigit? d)

/-- The space that a text takes up when it is encoded. -/
def byteCount : List Char → Nat
  | [] => 0
  | c :: s => c.utf8Size + byteCount s

/-- Takes four hexadecimal digits. The text ends too early if it has not even four bytes left. -/
def fourHex : Reader Nat where
  run
    | a :: b :: c :: d :: s => match hexNumber? a b c d with
      | some n => .ok (n, s)
      | none => .error .invalidEscape
    | s => if byteCount s < 4 then .error .endInText else .error .invalidEscape
  shorter := by
    intro s a rest h
    split at h
    · split at h
      · simp only [Except.ok.injEq, Prod.mk.injEq] at h
        rw [← h.2]
        simp only [List.length_cons]
        omega
      · nomatch h
    · split at h <;> nomatch h

/-- The character behind a backslash in a short escape. -/
def shortEscape? (c : Char) : Option Char :=
  if c = '"' then some '"'
  else if c = '\\' then some '\\'
  else if c = '/' then some '/'
  else if c = 'b' then some '\x08'
  else if c = 'f' then some '\x0c'
  else if c = 'n' then some '\n'
  else if c = 'r' then some '\r'
  else if c = 't' then some '\t'
  else none

/-- Whether a number is the first half of a pair of surrogates. -/
def isHighSurrogate (n : Nat) : Bool := 0xD800 ≤ n && n ≤ 0xDBFF

/-- Whether a number is the second half of a pair of surrogates. -/
def isLowSurrogate (n : Nat) : Bool := 0xDC00 ≤ n && n ≤ 0xDFFF

/-- The code point of a pair of surrogates. -/
def surrogatePair (high low : Nat) : Nat := (high - 0xD800) * 0x400 + (low - 0xDC00) + 0x10000

/-- Takes the second half of a pair of surrogates. -/
def lowSurrogate (high : Nat) : Reader Char :=
  let expect (c : Char) : Reader Unit :=
    next .endInText fun d => if d = c then .ok () else .error .surrogateEnd
  ((expect '\\').andThen ((expect 'u').andThen fourHex)).follow fun low =>
    if isLowSurrogate low then .done (Char.ofNat (surrogatePair high low))
    else .refuse .loneSurrogate

/-- Takes the code point of an escape, from behind the letter `u`. -/
def codePoint : Reader Char :=
  fourHex.follow fun n =>
    if isLowSurrogate n then .refuse .loneSurrogate
    else if isHighSurrogate n then .more (lowSurrogate n)
    else .done (Char.ofNat n)

/-- Takes a short escape, from behind the backslash. -/
def shortEscape : Reader Char :=
  next .endInText fun c => match shortEscape? c with
    | some d => .ok d
    | none => .error .invalidEscape

/-- Takes an escape, from behind the backslash. -/
def escape : Reader Char :=
  look .endInText fun c =>
    if c = 'u' then (anyChar .endInText).andThen codePoint else shortEscape

/-- Takes an escape without looking at the code point it stands for. -/
def skippedEscape : Reader Unit :=
  look .endInText fun c =>
    if c = 'u' then ((anyChar .endInText).andThen fourHex).map fun _ => ()
    else shortEscape.map fun _ => ()

/-! ## Quoted texts -/

/-- Whether a character must not stand in a quoted text unless it is escaped. -/
def isControl (c : Char) : Bool := c.toNat < 0x20

/-- Takes one more character of a quoted text, or its closing quote. The characters before it are
given in reverse. -/
def textStep (before : List Char) : Reader (List Char ⊕ String) :=
  (anyChar .endInText).follow fun c =>
    if c = '"' then .done (.inr (String.ofList before.reverse))
    else if c = '\\' then .more (escape.map fun d => .inl (d :: before))
    else if isControl c then .refuse .controlCharacter
    else .done (.inl (c :: before))

/-- Takes a quoted text from behind its opening quote. -/
def text : Reader String := iterate textStep []

/-- Passes over one more character of a quoted text, or its closing quote. -/
def skippedTextStep (_ : Unit) : Reader (Unit ⊕ Unit) :=
  (anyChar .endInText).follow fun c =>
    if c = '"' then .done (.inr ())
    else if c = '\\' then .more (skippedEscape.map .inl)
    else if isControl c then .refuse .controlCharacter
    else .done (.inl ())

/-- Passes over a quoted text from behind its opening quote. -/
def skippedText : Reader Unit := iterate skippedTextStep ()

end SyntaxForest.Document.Reader
