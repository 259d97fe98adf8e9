import SyntaxForest.Document.Shape
import SyntaxForest.Document.Skip

/-!
# Decoding

A document is read in one pass from left to right, straight into the tree that it describes, and
the first fault on the way is the result. `Form.reader` reads the outermost layer of a value and
leaves its parts to a given reader of shapes; `decoder` closes the loop, with a bound on how many
brackets may be open at the same time.

A record may be written as an object, with its fields in any order and with members that are not
looked at, or as an array of its fields in their order.
-/

namespace SyntaxForest.Document

open Numeric

/-- A reader for every shape. -/
abbrev Decoder := (s : Shape) → Reader s.Carrier

/-- The payload that a number in a document stands for. -/
def Numeral.toScalar : Numeral → Scalar
  | .int n =>
    if n < signedBound then .int (Int64.ofInt n)
    else .float (Binary.ofNat Format.double n.toNat)
  | .float x => .float x

namespace Reader

variable {α σ : Type}

/-! ## Faults that depend on what was found -/

/-- Reads a value that is not of the expected shape, to say what was found. A fault inside it comes
first. -/
def misplaced (expected : Expected) : Reader α :=
  let found (p : Reader Found) : Reader α := p.follow fun f => .refuse (.invalidType f expected)
  peek .endInValue fun c =>
    if c = 'n' then found (nullWord.map fun _ => .null)
    else if c = 't' then found (trueWord.map fun _ => .bool true)
    else if c = 'f' then found (falseWord.map fun _ => .bool false)
    else if c = '-' || c.isDigit then
      found (number.map fun
        | .int n => .int n
        | .float x => .float x)
    else if c = '"' then found (((anyChar .endInValue).andThen text).map .text)
    else if c = '[' then fail (.invalidType .sequence expected)
    else if c = '\x7b' then fail (.invalidType .map expected)
    else fail .expectedValue

/-- Reads the word `null`. -/
def unit (expected : Expected) : Reader Unit :=
  peek .endInValue fun c => if c = 'n' then nullWord else misplaced expected

/-- Reads a quoted text. -/
def quotedText : Reader String :=
  peek .endInValue fun c =>
    if c = '"' then (anyChar .endInValue).andThen text else misplaced .text

/-- Reads a value that may be null. -/
def nullable (p : Reader α) : Reader (Option α) :=
  peek .endInValue fun c => if c = 'n' then nullWord.map fun _ => none else p.map some

/-! ## Lists -/

/-- Reads on behind an element: the end of the list, or a comma and the next element. The elements
so far are given in reverse. -/
def listStep (item : Reader α) (before : List α) : Reader (List α ⊕ List α) :=
  peek .endInList fun c =>
    if c = ']' then (anyChar .endInList).map fun _ => .inr before.reverse
    else if c = ',' then
      (anyChar .endInList).andThen <| peek .endInValue fun c =>
        if c = ']' then fail .trailingComma else item.map fun a => .inl (a :: before)
    else fail .expectedListCommaOrEnd

/-- Reads a list from behind its opening bracket. -/
def items (item : Reader α) : Reader (List α) :=
  peek .endInList fun c =>
    if c = ']' then (anyChar .endInList).map fun _ => []
    else item.bind fun a => iterate (listStep item) [a]

/-! ## Objects -/

/-- Reads a key from its opening quote. -/
def key : Reader String := (anyChar .endInObject).andThen text

/-- Reads on behind a member: the end of the object, or a comma and the next member, which is read
by `member` from behind its key. -/
def membersStep (member : σ → String → Reader σ) (state : σ) : Reader (σ ⊕ σ) :=
  peek .endInObject fun c =>
    if c = '\x7d' then (anyChar .endInObject).map fun _ => .inr state
    else if c = ',' then
      (anyChar .endInObject).andThen <| peek .endInValue fun c =>
        if c = '"' then key.bind fun k => (member state k).map .inl
        else if c = '\x7d' then fail .trailingComma
        else fail .keyNotText
    else fail .expectedObjectCommaOrEnd

/-- Reads the members of an object from behind its opening brace, one after the other from a
state. -/
def members (member : σ → String → Reader σ) (state : σ) : Reader σ :=
  peek .endInObject fun c =>
    if c = '\x7d' then (anyChar .endInObject).map fun _ => state
    else if c = '"' then
      key.bind fun k => (member state k).bind fun state => iterate (membersStep member) state
    else fail .keyNotText

/-! ## Numbers -/

/-- Opens a bracket and reads what is inside, if another level is allowed. -/
def enter (inner : Option Decoder) (inside : Decoder → Reader α) : Reader α :=
  match inner with
  | none => fail .tooDeep
  | some decoder => (anyChar .endInValue).andThen (inside decoder)

/-- Reads a value of any shape and keeps it if it is a number. -/
def anyValue (inner : Option Decoder) : Reader (Option Scalar) :=
  peek .endInValue fun c =>
    if c = 'n' then nullWord.map fun _ => none
    else if c = 't' then trueWord.map fun _ => none
    else if c = 'f' then falseWord.map fun _ => none
    else if c = '-' || c.isDigit then number.map fun n => some n.toScalar
    else if c = '"' then ((anyChar .endInValue).andThen text).map fun _ => none
    else if c = '[' then (enter inner fun decoder => items (decoder .any)).map fun _ => none
    else if c = '\x7b' then
      (enter inner fun decoder =>
        members (fun _ _ => (colon.andThen (decoder .any)).map fun _ => ()) ()).map fun _ => none
    else fail .expectedValue

/-! ## Variants -/

/-- Finds the variant of a name. -/
def findVariant (table : List (Variant α)) (tag : String) : Except Fault (Variant α) :=
  match table.find? (·.tag == tag) with
  | some v => .ok v
  | none => .error (.unknownVariant tag (table.map Variant.tag))

/-- Reads a variant that is given by its name alone. -/
def bareVariant (table : List (Variant α)) : Reader α :=
  ((anyChar .endInValue).andThen text).follow fun tag =>
    match findVariant table tag with
    | .error e => .refuse e
    | .ok (.unit _ value) => .done value
    | .ok (.data _ _ _) => .refuse (.invalidType .unitVariant .payload)

/-- Reads the payload of a variant from behind the name. -/
def payload (decoder : Decoder) : Variant α → Reader α
  | .unit _ value => (colon.andThen (unit .unit)).map fun _ => value
  | .data _ shape make => (colon.andThen (decoder shape)).map make

/-- Reads a variant from behind the brace that opens it: its name, its payload and the closing
brace. -/
def taggedVariant (decoder : Decoder) (table : List (Variant α)) : Reader α :=
  let tagged : Reader α := key.follow fun tag =>
    match findVariant table tag with
    | .error e => .refuse e
    | .ok variant => .more (payload decoder variant)
  (peek .endInObject fun c =>
    if c = '"' then tagged
    else if c = '\x7d' then fail .expectedValue
    else fail .keyNotText).andClose (symbol '\x7d' .endInObject .expectedValue)

/-- Reads a variant. -/
def variant (inner : Option Decoder) (table : List (Variant α)) : Reader α :=
  peek .endInValue fun c =>
    if c = '\x7b' then enter inner fun decoder => taggedVariant decoder table
    else if c = '"' then bareVariant table
    else fail .expectedValue

end Reader

/-! ## Records -/

/-- The fields of a record that have been read so far. -/
@[reducible]
def Slots : List Field → Type
  | [] => Unit
  | field :: fields => Option field.Carrier × Slots fields

/-- No field has been read yet. -/
def Slots.empty : (fields : List Field) → Slots fields
  | [] => ()
  | _ :: fields => (none, empty fields)

/-- The value of a field that is not there, if it may be missing. -/
def Field.default? : (field : Field) → Option field.Carrier
  | .required _ _ => none
  | .optional _ _ => some none

/-- The fields of a record, when no more of them will come. The first one in order that must not be
missing is a fault. -/
def Slots.complete : (fields : List Field) → Slots fields → Except Fault (Values fields)
  | [], () => .ok ()
  | field :: fields, (slot, slots) =>
    match slot.or field.default? with
    | none => .error (.missingField field.name)
    | some value => match complete fields slots with
      | .error e => .error e
      | .ok values => .ok (value, values)

/-- The values of fields that are all missing, the first of them at the given place. -/
def Values.missing (name : String) (total : Nat) :
    (fields : List Field) → Nat → Except Fault (Values fields)
  | [], _ => .ok ()
  | field :: fields, place =>
    match field.default? with
    | none => .error (.invalidLength place name total)
    | some value => match missing name total fields (place + 1) with
      | .error e => .error e
      | .ok values => .ok (value, values)

/-- Reads what a field holds. -/
def Field.reader (decoder : Decoder) : (field : Field) → Reader field.Carrier
  | .required _ shape => decoder shape
  | .optional _ shape => (decoder shape).nullable

namespace Reader

variable {α : Type}

/-- Reads a member of a record from behind its key. A field that is already there is a fault before
its value is looked at; a key that is no field is passed over with its value. -/
def fieldMember (decoder : Decoder) :
    (fields : List Field) → Slots fields → String → Reader (Slots fields)
  | [], (), _ => (colon.andThen skip).map fun _ => ()
  | field :: fields, (slot, slots), k =>
    if field.name = k then
      match slot with
      | some _ => fail (.duplicateField k)
      | none => (colon.andThen (field.reader decoder)).map fun value => (some value, slots)
    else (fieldMember decoder fields slots k).map fun slots => (slot, slots)

/-- Reads a record as an object, from behind its opening brace. -/
def recordObject (decoder : Decoder) (fields : List Field) (make : Values fields → α) : Reader α :=
  (members (fieldMember decoder fields) (Slots.empty fields)).follow fun slots =>
    match slots.complete with
    | .error e => .refuse e
    | .ok values => .done (make values)

/-- Takes the end of a list all of whose elements have been read. -/
def listEnd : Reader Unit :=
  peek .endInList fun c =>
    if c = ']' then (anyChar .endInList).map fun _ => ()
    else if c = ',' then
      (anyChar .endInList).andThen <| peek .trailingCharacters fun c =>
        if c = ']' then fail .trailingComma else fail .trailingCharacters
    else fail .trailingCharacters

/-- Reads the fields of a record in their order, from the given place on, and the end of the
list. -/
def recordList (decoder : Decoder) (name : String) (total : Nat) :
    (fields : List Field) → Nat → Reader (Values fields)
  | [], _ => listEnd
  | field :: fields, place =>
    let element : Reader (Values (field :: fields)) :=
      (field.reader decoder).bind fun value =>
        (recordList decoder name total fields (place + 1)).map fun values => (value, values)
    peek .endInList fun c =>
      if c = ']' then
        (anyChar .endInList).follow fun _ =>
          match Values.missing name total (field :: fields) place with
          | .error e => .refuse e
          | .ok values => .done values
      else if place = 0 then element
      else if c = ',' then
        (anyChar .endInList).andThen <| peek .endInValue fun c =>
          if c = ']' then fail .trailingComma else element
      else fail .expectedListCommaOrEnd

/-- Reads a record. -/
def record (inner : Option Decoder) (name : String) (fields : List Field)
    (make : Values fields → α) : Reader α :=
  peek .endInValue fun c =>
    if c = '\x7b' then enter inner fun decoder => recordObject decoder fields make
    else if c = '[' then
      enter inner fun decoder => (recordList decoder name fields.length fields 0).map make
    else misplaced (.record name)

/-- Reads a list. -/
def list (inner : Option Decoder) (item : Shape) : Reader (List item.Carrier) :=
  peek .endInValue fun c =>
    if c = '[' then enter inner fun decoder => items (decoder item)
    else misplaced .sequence

end Reader

/-! ## Documents -/

/-- Reads the outermost layer of a value of the given form. The parts inside its brackets are left
to the decoder, and without one no bracket may be opened. -/
def Form.reader {α : Type} (inner : Option Decoder) : Form α → Reader α
  | .text make => Reader.quotedText.map make
  | .any make => (Reader.anyValue inner).map make
  | .scalar make => (Reader.anyValue inner).follow fun
    | some value => .done (make value)
    | none => .refuse .noScalar
  | .unit name value => (Reader.unit (.unitRecord name)).map fun _ => value
  | .variants table => Reader.variant inner table
  | .record name fields make => Reader.record inner name fields make
  | .list item make => (Reader.list inner item).map make

/-- Reads values in which at most the given number of brackets are open at the same time. -/
def decoder : Nat → Decoder
  | 0 => fun s => s.form.reader none
  | depth + 1 => fun s => s.form.reader (some (decoder depth))

/-- The most brackets that may be open at the same time. -/
def maxDepth : Nat := 127

/-- Reads a document that holds one value of a shape, and nothing but blanks behind it. -/
def decodeChars (s : Shape) (document : List Char) : Except Fault s.Carrier :=
  match (decoder maxDepth s).run document with
  | .error e => .error e
  | .ok (value, rest) => if (skipBlanks rest).isEmpty then .ok value else .error .trailingCharacters

/-- Reads a document that holds one value of a shape. -/
def decode (s : Shape) (document : String) : Except Fault s.Carrier :=
  decodeChars s document.toList

end SyntaxForest.Document
