import SyntaxForest.Proofs.Document.Decimals
import SyntaxForest.Proofs.Document.ForestLayouts
import SyntaxForest.Proofs.Numeric.Scientific

/-!
# Constants read back

A finite constant is always read back from its document as a finite number of the same sign, but not
always as itself: the reader rounds more than once. It ends five magnitudes away at most, and at the
number itself if the digits in the text fit into 53 bits and the power of ten is small
(`Forest.parse_dump_double`).
-/

namespace SyntaxForest

open Numeric Document

namespace Document

/-! ## The significand and the power of ten in the text of a number -/

theorem reading_value (d : Decimal) :
    ((reading d).1 : ℚ) * 10 ^ (reading d).2 = d.value := by
  rw [reading, Decimal.value]
  split
  · next h =>
    obtain ⟨k, hk⟩ := Int.eq_ofNat_of_zero_le h.1
    rw [hk, Int.toNat_natCast, zpow_natCast]
    push_cast
    rw [pow_succ]
    field_simp
  · rfl

theorem reading_pos {d : Decimal} (hd : 0 < d.digits) : 0 < (reading d).1 := by
  rw [reading]
  split
  · exact Nat.mul_pos hd (Nat.pow_pos (by decide))
  · exact hd

theorem reading_lt {d : Decimal} (hd : d.digits < unsignedBound) :
    (reading d).1 < unsignedBound := by
  rw [reading]
  split
  · next h => exact reading_whole_lt h.1 h.2
  · exact hd

theorem reading_exponent_bounds {d : Decimal} (h : -340 ≤ d.exponent ∧ d.exponent ≤ 308) :
    -340 ≤ (reading d).2 ∧ (reading d).2 ≤ 308 := by
  rw [reading]
  split
  · exact (⟨by decide, by decide⟩ : -340 ≤ (-1 : Int) ∧ (-1 : Int) ≤ 308)
  · exact h

/-- The significand and the power of ten that are read from the text of a finite number. -/
def numberReading (x : Double) : Nat × Int :=
  if x.isZero then (0, -1) else reading (Format.double.shortest .even x.magnitude)

theorem shortest_digits_lt_unsignedBound {m : Nat} (hm : 0 < m) :
    (Format.double.shortest .even m).digits < unsignedBound :=
  Nat.lt_trans (Double.shortest_digits_lt .even hm) (by decide)

theorem magnitude_pos {x : Double} (hx : x.isZero = false) : 0 < x.magnitude := by
  rw [Binary.isZero, beq_eq_false_iff_ne] at hx
  exact Nat.pos_of_ne_zero hx

theorem unsignedNumber_magnitude (negative : Bool) (x : Double) {rest : List Char}
    (hr : EndsNumber rest) :
    (unsignedNumber negative ((documentLayout.magnitude x).toList ++ rest)).toOption =
      (Double.ofScientific? negative (numberReading x).1 (numberReading x).2).map
        fun y => (.float y, rest) := by
  rw [Layout.magnitude, numberReading]
  cases hzero : x.isZero with
  | true =>
    have htext : ("0" ++ documentLayout.whole).toList ++ rest = '0' :: '.' :: (['0'] ++ rest) := by
      simp [documentLayout]
    have hvalue : Nat.ofDigitChars 10 ['0'] 0 = 0 := by decide
    rw [if_pos rfl, if_pos rfl, htext, unsignedNumber_zero_point,
      fraction_append negative (by simp) (by simp [AllDigits]) hr.startsWithDigit
        (by rw [hvalue]; decide), hvalue, List.length_singleton]
    exact scaled_end negative 0 (-1) hr
  | false =>
    have hm := magnitude_pos hzero
    rw [if_neg (by decide), if_neg (by decide)]
    exact unsignedNumber_decimal negative (Format.double.shortest_digits_pos .even hm)
      (shortest_digits_lt_unsignedBound hm) hr

/-- The text of a finite number is read as the number that its significand and its power of ten
give, if there is one. -/
theorem number_yields_text {x : Double} (hx : x.isFinite = true) :
    Reader.number.Yields (documentLayout.text x).toList
      ((Double.ofScientific? x.negative (numberReading x).1 (numberReading x).2).map .float) := by
  have hnan : x.isNaN = false := by
    rw [Binary.isFinite_iff] at hx
    simp only [Binary.isNaN, decide_eq_false_iff_not]
    omega
  have htext : (documentLayout.text x).toList =
      if x.negative then '-' :: (documentLayout.magnitude x).toList
      else (documentLayout.magnitude x).toList := by
    cases hneg : x.negative <;> simp [Layout.text, hnan, hx, hneg]
  intro rest hr
  have hread := unsignedNumber_magnitude x.negative x hr
  rw [htext, Option.map_map]
  cases hneg : x.negative with
  | true =>
    rw [hneg] at hread
    rw [if_pos rfl, List.cons_append, Reader.read_number_negative, hread]
    rfl
  | false =>
    rw [hneg] at hread
    obtain ⟨c, s, hcons, hc⟩ := (numberText_magnitude documentLayout
      (.inr ⟨['0'], by simp, by simp [AllDigits], by simp [documentLayout]⟩) x).cons
    have hsign : c ≠ '-' := by
      rintro rfl
      cases hc
    rw [if_neg (by decide), hcons, List.cons_append, Reader.read_number_unsigned _ hsign,
      ← List.cons_append, ← hcons, hread]
    rfl

/-! ## What the significand and the power of ten give -/

/-- Whether a finite number close to a magnitude is read from its shortest decimal. -/
def readsClose (negative : Bool) (m : Nat) : Bool :=
  let r := reading (Format.double.shortest .even m)
  (Double.ofScientific? negative r.1 r.2).any fun y =>
    y.negative == negative && y.isFinite && (m ≤ y.magnitude + 5 && y.magnitude ≤ m + 5)

/-- The largest numbers, where a product could be infinite. -/
theorem readsClose_largest : ∀ i < 3, ∀ negative : Bool,
    readsClose negative (Format.double.infinity - 1 - i) = true := by
  decide +kernel

/-- From the shortest decimal of a number a finite number is read that is close to it. -/
theorem shortest_read (negative : Bool) {m : Nat} (hm : 0 < m) (hm' : m < Format.double.infinity) :
    ∃ y, Double.ofScientific? negative (reading (Format.double.shortest .even m)).1
        (reading (Format.double.shortest .even m)).2 = some y ∧
      y.negative = negative ∧ y.isFinite = true ∧ m ≤ y.magnitude + 5 ∧ y.magnitude ≤ m + 5 := by
  rcases Nat.lt_or_ge (m + 3) Format.double.infinity with hlt | hge
  · have hpos := reading_pos (Format.double.shortest_digits_pos .even hm)
    have hbound := reading_lt (shortest_digits_lt_unsignedBound hm)
    have hbetween := Format.double.shortest_between .even hm
    have hexp := reading_exponent_bounds (Double.shortest_exponent_bounds .even hm hm')
    rw [← reading_value] at hbetween
    generalize reading (Format.double.shortest .even m) = r at hpos hbound hbetween hexp
    exact Double.ofScientific?_near negative hpos hbound hm'.le hexp.1 hexp.2 (fun _ => hlt)
      hbetween.1 hbetween.2
  · obtain ⟨i, hi, hmi⟩ : ∃ i < 3, Format.double.infinity - 1 - i = m :=
      ⟨Format.double.infinity - 1 - m, by omega, by omega⟩
    have hread := readsClose_largest i hi negative
    rw [hmi, readsClose] at hread
    simpa [Option.any_eq_true, and_assoc] using hread

/-- From the text of a finite number a finite number of the same sign is read that is close to it,
and the number itself if the text has few digits and a small power of ten. -/
theorem numberReading_close {x : Double} (hx : x.isFinite = true) :
    ∃ y, Double.ofScientific? x.negative (numberReading x).1 (numberReading x).2 = some y ∧
      y.negative = x.negative ∧ y.isFinite = true ∧
      (x.magnitude ≤ y.magnitude + 5 ∧ y.magnitude ≤ x.magnitude + 5) ∧
      ((numberReading x).1 ≤ 2 ^ 53 → -22 ≤ (numberReading x).2 → (numberReading x).2 ≤ 22 →
        y = x) := by
  have hm' := Binary.isFinite_iff.mp hx
  have hext {y : Double} (hnegative : y.negative = x.negative)
      (hmagnitude : y.magnitude = x.magnitude) : y = x := by
    cases x
    cases y
    simp_all
  cases hzero : x.isZero with
  | true =>
    have hreading : numberReading x = (0, -1) := by simp [numberReading, hzero]
    have hread : ∀ negative : Bool, (Double.ofScientific? negative 0 (-1)).any fun y =>
        y.negative == negative && y.magnitude == 0 := by
      decide +kernel
    have hread := hread x.negative
    simp only [Option.any_eq_true, Bool.and_eq_true, beq_iff_eq] at hread
    obtain ⟨y, hy, hnegative, hmagnitude⟩ := hread
    have hxm : x.magnitude = 0 := by simpa [Binary.isZero] using hzero
    have hxy : y = x := hext hnegative (by rw [hmagnitude, hxm])
    rw [hreading]
    exact ⟨x, hxy ▸ hy, rfl, hx, by omega, fun _ _ _ => rfl⟩
  | false =>
    have hreading : numberReading x = reading (Format.double.shortest .even x.magnitude) := by
      simp [numberReading, hzero]
    have hm := magnitude_pos hzero
    obtain ⟨y, hy, hnegative, hfinite, hlow, hhigh⟩ := shortest_read x.negative hm hm'
    rw [hreading]
    refine ⟨y, hy, hnegative, hfinite, ⟨hlow, hhigh⟩, ?_⟩
    intro hdigits hleast hmost
    exact hext hnegative (Double.ofScientific?_shortest x.negative hm hm'
      (reading_pos (Format.double.shortest_digits_pos .even hm)) hdigits hleast hmost
      (reading_value _) hy)

/-! ## The constant in its document -/

/-- A variant of the encoder is read if its payload is. -/
theorem variant_yields (s : Shape) (tag : String) {shape : Shape}
    {table : List (Variant s.Carrier)} {make : shape.Carrier → s.Carrier} {v : shape.Carrier}
    {j : Json} {bound : Nat} (hform : s.form = .variants table)
    (hfind : Reader.findVariant table tag = .ok (.data tag shape make))
    (h : ∀ sp, (decoder bound shape).Yields (j.chars sp) (some v)) (sp : Spacing) :
    (decoder (bound + 1) s).Yields ((Json.variant tag j).chars sp) (some (make v)) := by
  obtain ⟨inside, hinside, h'⟩ := inside_object sp [(tag, j)]
  have hvalue := (h sp.deeper).passBlanks (.decoder bound shape) sp.deeper.colon_eq.2
  rw [Json.variant, hinside]
  exact tagged_yields hform hfind Blank.nil (Member.spaced_written sp.deeper (tag, j))
    (quotedText_quotedTail tag) hvalue h'

theorem constant_yields {kind : Primitive} {v : Scalar} {j : Json} {bound : Nat}
    (h : ∀ sp, (decoder bound .scalar).Yields (j.chars sp) (some v)) (sp : Spacing) :
    (decoder (bound + 1) .constant).Yields
      ((Json.object [("kind", .text kind.keyword), ("value", j)]).chars sp)
      (some (⟨kind, v⟩ : Constant)) := by
  let fields : List Field := [.required "kind" .primitive, .required "value" .scalar]
  let members : List (String × Member) :=
    [("kind", .written sp.deeper ("kind", .text kind.keyword)),
      ("value", .written sp.deeper ("value", j))]
  have hfind : Reader.findVariant (Primitive.all.map fun kind => .unit kind.keyword kind)
      kind.keyword = .ok (.unit kind.keyword kind) := by
    cases kind <;> rfl
  have hkind : (decoder bound .primitive).Yields ((Json.text kind.keyword).chars sp.deeper)
      (some kind) := by
    rw [decoder_eq]
    exact Reader.variant_yields_name hfind (quotedText_quotedTail kind.keyword) _
  have hfields : ∀ m ∈ members, Values.Forall (fun field value => field.name = m.1 →
      (field.reader (decoder bound)).Yields m.2.value (some value)) fields (kind, v, ()) := by
    have hblank := sp.deeper.colon_eq.2
    rw [List.forall_mem_cons, List.forall_mem_singleton]
    refine ⟨⟨fun _ => hkind.passBlanks (.decoder _ _) hblank, fun hname => ?_, trivial⟩,
      fun hname => ?_, fun _ => (h _).passBlanks (.decoder _ _) hblank, trivial⟩
    · exact absurd hname (by simp [Field.name])
    · exact absurd hname (by simp [Field.name])
  obtain ⟨inside, hinside, h'⟩ :=
    inside_object sp [("kind", .text kind.keyword), ("value", j)]
  rw [hinside]
  refine object_yields (show Shape.form .constant = .record _ fields _ from rfl) Blank.nil
    ?_ ?_ ?_ hfields ?_ ?_ h'
  · simp [members, Member.spaced_written]
  · simp [members, Member.written, quotedText_quotedTail]
  · simp [members]
  · simp [members, fields, Values.Forall, Field.name]
  · simp [members, fields, Field.name]

theorem scalar_yields_float {x y : Double} (hx : x.isFinite = true)
    (h : Double.ofScientific? x.negative (numberReading x).1 (numberReading x).2 = some y)
    (bound : Nat) (sp : Spacing) :
    (decoder bound .scalar).Yields ((Json.float x).chars sp) (some (.float y)) := by
  have hnumber := number_yields_text hx
  rw [h] at hnumber
  rw [decoder_eq]
  exact Reader.scalar_yields _ (documentLayout_text_cons hx) hnumber

end Document

namespace Forest

/-- A constant is read back from its document as what the significand and the power of ten in its
text give, if that is finite. -/
theorem parse_dump_of_read {x y : Double} (hx : x.isFinite = true) (hy : y.isFinite = true)
    (h : Double.ofScientific? x.negative (numberReading x).1 (numberReading x).2 = some y) :
    parse (dump [.expr (.const ⟨.double, .float x⟩)]) =
      .ok [.expr (.const ⟨.double, .float y⟩)] := by
  let node : Node := .expr (.const ⟨.double, .float x⟩)
  let result : Node := .expr (.const ⟨.double, .float y⟩)
  let sp : Spacing := (Spacing.indented 0).deeper
  have hnode : (decoder 126 .node).Yields (node.toJson.chars sp) (some result) :=
    variant_yields .node "Expression" rfl rfl (variant_yields .expr "Constant" rfl rfl
      (constant_yields (scalar_yields_float hx h 123))) sp
  have hbegins : Reader.BeginsValue (sp.gap ++ node.toJson.chars sp) :=
    ((node.encodes.spells sp).behind sp.blank_gap).begins
  have hlist : (decoder maxDepth (.list .node)).Yields (dump [node]).toList (some [result]) := by
    obtain ⟨inside, hinside, h'⟩ := inside_array (.indented 0) [node.toJson]
    have hdump : (dump [node]).toList = '[' :: inside := by
      rw [dump_toList]
      exact hinside
    have hparts : ∀ part ∈ [(result, sp.gap ++ node.toJson.chars sp)],
        (decoder 126 .node).Yields part.2 (some part.1) :=
      List.forall_mem_singleton.mpr (hnode.passBlanks (.decoder 126 .node) sp.blank_gap)
    rw [hdump]
    exact list_yields (show Shape.form (.list .node) = .list .node id from rfl) Blank.nil
      (List.forall_mem_singleton.mpr hbegins) hparts h'
  have hcheck : result.check = .ok () := by
    rw [Node.check_const]
    simp [Constant.validate, Primitive.isFloating, Primitive.inRange, hy]
  exact parse_of_check_ok (decode_toOption hlist)
    (check_eq_ok (List.forall_mem_singleton.mpr hcheck))

/-- A finite constant is read back from its document as a finite number of the same sign, at most
five magnitudes away, and as itself if the digits in its text fit into 53 bits and the power of ten
is small. -/
theorem parse_dump_double {x : Double} (hx : x.isFinite = true) :
    ∃ y : Double, parse (dump [.expr (.const ⟨.double, .float x⟩)]) =
        .ok [.expr (.const ⟨.double, .float y⟩)] ∧
      y.negative = x.negative ∧ y.isFinite = true ∧
      (x.magnitude ≤ y.magnitude + 5 ∧ y.magnitude ≤ x.magnitude + 5) ∧
      ((numberReading x).1 ≤ 2 ^ 53 → -22 ≤ (numberReading x).2 → (numberReading x).2 ≤ 22 →
        y = x) := by
  obtain ⟨y, hread, hclose⟩ := numberReading_close hx
  exact ⟨y, parse_dump_of_read hx hclose.2.1 hread, hclose⟩

/-- The negative of `10 ^ 22` comes back as itself. -/
theorem parse_dump_double_tens :
    let x : Double := .ofBits .double 0xc480f0cf064dd592
    x.isFinite = true ∧ numberReading x = (1, 22) ∧
    parse (dump [.expr (.const ⟨.double, .float x⟩)]) =
      .ok [.expr (.const ⟨.double, .float x⟩)] := by
  intro x
  have hx : x.isFinite = true := by decide +kernel
  have hreading : numberReading x = (1, 22) := by decide +kernel
  obtain ⟨y, hparse, -, -, -, hexact⟩ := parse_dump_double hx
  rw [hreading] at hexact
  have hy : y = x := hexact (by decide) (by decide) (by decide)
  rw [hy] at hparse
  exact ⟨hx, hreading, hparse⟩

/-- The whole number `2 ^ 53 - 1` is written as `9007199254740991.0` and comes back as the number
before it. -/
theorem parse_dump_altered :
    let x : Double := .ofBits .double 0x433fffffffffffff
    let y : Double := .ofBits .double 0x433ffffffffffffe
    x.isFinite = true ∧ x.same y = false ∧
    parse (dump [.expr (.const ⟨.double, .float x⟩)]) =
      .ok [.expr (.const ⟨.double, .float y⟩)] := by
  intro x y
  have hx : x.isFinite = true := by decide +kernel
  have hy : y.isFinite = true := by decide +kernel
  have hread : Double.ofScientific? x.negative (numberReading x).1 (numberReading x).2 = some y := by
    decide +kernel
  exact ⟨hx, by decide +kernel, parse_dump_of_read hx hy hread⟩

end Forest

end SyntaxForest
