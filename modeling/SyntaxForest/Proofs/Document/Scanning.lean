import SyntaxForest.Document.Skip

/-!
# Where a number ends

A number has no closing mark: it ends at the first character that cannot belong to one. The parts of
the reader of numbers, and those that only pass over one, therefore have two things in common. What
they take off the front of a text are characters of numbers; and when there is a character in the
text that is none, nothing that follows the text matters to them. `Scans` says so, with one rule for
each way in which the parts are put together.
-/

namespace SyntaxForest.Document

open Numeric

/-- Whether a number may go on with a character. -/
def isNumeric (c : Char) : Bool :=
  c.isDigit || c = '-' || c = '+' || c = '.' || c = 'e' || c = 'E'

theorem isNumeric_of_isDigit {c : Char} (h : c.isDigit = true) : isNumeric c = true := by
  simp [isNumeric, h]

theorem isNumeric_of_exponent {c : Char} (h : (c = 'e' || c = 'E') = true) :
    isNumeric c = true := by
  rw [Bool.or_eq_true, decide_eq_true_eq, decide_eq_true_eq] at h
  rcases h with rfl | rfl <;> rfl

/-- Some character of the text ends a number. -/
def Stops (s : List Char) : Prop := ∃ c ∈ s, isNumeric c = false

theorem not_stops_nil : ¬Stops [] := by
  rintro ⟨c, hc, -⟩
  cases hc

theorem Stops.of_append {t rest : List Char} (h : Stops (t ++ rest))
    (ht : ∀ c ∈ t, isNumeric c = true) : Stops rest := by
  obtain ⟨c, hc, hstops⟩ := h
  rcases List.mem_append.mp hc with hc | hc
  · rw [ht c hc] at hstops
    cases hstops
  · exact ⟨c, hc, hstops⟩

variable {α β : Type}

/-- What a part of the reader of numbers makes of a text: it takes characters of numbers off the
front, and where the number ends within the text, it makes the same of every longer one. -/
structure Scans (f : List Char → Outcome α) (s : List Char) : Prop where
  splits : ∀ a rest, f s = .ok (a, rest) → ∃ t, s = t ++ rest ∧ ∀ c ∈ t, isNumeric c = true
  settled : Stops s → ∀ more, f (s ++ more) = (f s).map fun (a, rest) => (a, rest ++ more)

namespace Scans

variable {f : List Char → Outcome α} {s : List Char}

theorem nil (h : ∀ a rest, f [] = .ok (a, rest) → rest = []) : Scans f [] where
  splits a rest hok := ⟨[], (h a rest hok).symm, by simp⟩
  settled hstops := absurd hstops not_stops_nil

theorem error {fault : Fault} (h : ∀ more, f (s ++ more) = .error fault) : Scans f s := by
  have hs : f s = .error fault := by simpa using h []
  refine ⟨fun a rest hok => ?_, fun _ more => by rw [h, hs, Except.map]⟩
  rw [hs] at hok
  cases hok

theorem done (a : α) (h : ∀ more, f (s ++ more) = .ok (a, s ++ more)) : Scans f s := by
  have hs : f s = .ok (a, s) := by simpa using h []
  refine ⟨fun b rest hok => ?_, fun _ more => by rw [h, hs, Except.map]⟩
  rw [hs] at hok
  cases hok
  exact ⟨[], rfl, by simp⟩

/-- Characters of numbers are taken off the front, and another part goes on behind them. -/
theorem behind {g : List Char → Outcome α} (t : List Char) {rest : List Char} (hg : Scans g rest)
    (hs : s = t ++ rest) (ht : ∀ c ∈ t, isNumeric c = true) (h : f s = g rest)
    (hmore : Stops s → ∀ more, f (s ++ more) = g (rest ++ more)) : Scans f s where
  splits a rest' hok := by
    obtain ⟨u, hu, hnumeric⟩ := hg.splits a rest' (h ▸ hok)
    refine ⟨t ++ u, by rw [hs, hu, List.append_assoc], fun c hc => ?_⟩
    rcases List.mem_append.mp hc with hc | hc
    · exact ht c hc
    · exact hnumeric c hc
  settled hstops more := by
    rw [hmore hstops more, h]
    exact hg.settled (.of_append (hs ▸ hstops) ht) more

/-- The first character is one of a number, and another part goes on behind it. -/
theorem cons {g : List Char → Outcome α} {c : Char} (hg : Scans g s) (hc : isNumeric c = true)
    (h : ∀ s, f (c :: s) = g s) : Scans f (c :: s) :=
  hg.behind [c] rfl (by simpa using hc) (h s) fun _ more => h (s ++ more)

/-- Nothing is taken, and another part goes on. -/
theorem same {g : List Char → Outcome α} {c : Char} (hg : Scans g (c :: s))
    (h : ∀ s, f (c :: s) = g (c :: s)) : Scans f (c :: s) :=
  hg.behind [] rfl (by simp) (h s) fun _ more => h (s ++ more)

/-- One part goes on where another one has stopped. -/
theorem bind {g : List Char → Outcome β} {k : β → List Char → Outcome α} (hg : Scans g s)
    (hk : ∀ b rest, Scans (k b) rest)
    (h : ∀ more, f (s ++ more) = (g (s ++ more)).bind fun r => k r.1 r.2) : Scans f s := by
  have hs : f s = (g s).bind fun r => k r.1 r.2 := by simpa using h []
  cases hgs : g s with
  | error fault =>
    rw [hgs] at hs
    refine ⟨fun a rest hok => ?_, fun hstops more => ?_⟩
    · rw [hs] at hok
      cases hok
    · rw [h, hg.settled hstops more, hs, hgs]
      rfl
  | ok result =>
    obtain ⟨b, rest⟩ := result
    obtain ⟨t, ht, hnumeric⟩ := hg.splits b rest hgs
    rw [hgs] at hs
    refine behind t (hk b rest) ht hnumeric hs fun hstops more => ?_
    rw [h, hg.settled hstops more, hgs]
    rfl

end Scans

/-! ## Digits -/

theorem scans_takeNat (value : Nat) (s : List Char) : Scans (fun s => .ok (takeNat value s)) s := by
  induction s generalizing value with
  | nil => exact .nil fun a rest h => by cases h; rfl
  | cons c s ih =>
    cases hc : c.isDigit with
    | true =>
      exact (ih (value * 10 + digitValue c)).cons (isNumeric_of_isDigit hc) fun s => by
        rw [takeNat, if_pos hc]
    | false => exact .done value fun more => by simp [takeNat, hc]

theorem scans_dropDigits (s : List Char) : Scans (fun s => .ok (dropDigits s)) s := by
  induction s with
  | nil => exact .nil fun a rest h => by cases h; rfl
  | cons c s ih =>
    cases hc : c.isDigit with
    | true =>
      -- The digits behind the first are counted, and then the first.
      have hcount : Scans (fun s => .ok ((dropDigits s).1 + 1, (dropDigits s).2)) s :=
        ih.bind (k := fun n rest => .ok (n + 1, rest)) (fun n rest => .done _ fun _ => rfl)
          fun _ => rfl
      exact hcount.cons (isNumeric_of_isDigit hc) fun s => by rw [dropDigits, if_pos hc]
    | false => exact .done 0 fun more => by simp [dropDigits, hc]

theorem scans_takeDigits (significand : Nat) (s : List Char) :
    Scans (fun s => .ok (((takeDigits significand s).1, (takeDigits significand s).2.1),
      (takeDigits significand s).2.2)) s := by
  induction s generalizing significand with
  | nil => exact .nil fun a rest h => by cases h; rfl
  | cons c s ih =>
    cases hc : c.isDigit && significand * 10 + digitValue c < unsignedBound with
    | true =>
      have hcount : Scans (fun s => .ok
          (((takeDigits (significand * 10 + digitValue c) s).1,
            (takeDigits (significand * 10 + digitValue c) s).2.1 + 1),
            (takeDigits (significand * 10 + digitValue c) s).2.2)) s :=
        (ih _).bind (k := fun taken rest => .ok ((taken.1, taken.2 + 1), rest))
          (fun taken rest => .done _ fun _ => rfl) fun _ => rfl
      exact hcount.cons (isNumeric_of_isDigit (Bool.and_eq_true _ _ ▸ hc).1) fun s => by
        rw [takeDigits, if_pos hc]
    | false => exact .done (significand, 0) fun more => by simp [takeDigits, hc]

/-! ## Numbers -/

theorem scans_exponentDigits (negative : Bool) (s : List Char) :
    Scans (exponentDigits negative) s := by
  cases s with
  | nil => exact .nil fun a rest h => nomatch h
  | cons c s =>
    cases hc : c.isDigit with
    | true =>
      have hvalue : Scans (fun s => .ok
          (if negative then -((takeNat (digitValue c) s).1 : Int) else (takeNat (digitValue c) s).1,
            (takeNat (digitValue c) s).2)) s :=
        (scans_takeNat (digitValue c) s).bind
          (k := fun (n : Nat) rest => .ok (if negative then -(n : Int) else n, rest))
          (fun n rest => .done _ fun _ => rfl) fun _ => rfl
      exact hvalue.cons (isNumeric_of_isDigit hc) fun s => by rw [exponentDigits, if_pos hc]
    | false =>
      exact .error fun more => by
        rw [List.cons_append, exponentDigits, hc]
        rfl

theorem scans_signedExponent (s : List Char) : Scans signedExponent s := by
  cases s with
  | nil => exact .nil fun a rest h => nomatch h
  | cons c s =>
    by_cases hplus : c = '+'
    · exact (scans_exponentDigits false s).cons (by simp [hplus, isNumeric]) fun s => by
        rw [signedExponent, if_pos hplus]
    by_cases hminus : c = '-'
    · exact (scans_exponentDigits true s).cons (by simp [hminus, isNumeric]) fun s => by
        rw [signedExponent, if_neg hplus, if_pos hminus]
    · exact (scans_exponentDigits false (c :: s)).same fun s => by
        rw [signedExponent, if_neg hplus, if_neg hminus]

theorem scans_exponentPart (s : List Char) : Scans exponentPart s := by
  cases s with
  | nil => exact .nil fun a rest h => by cases h; rfl
  | cons c s =>
    cases hc : c = 'e' || c = 'E' with
    | true =>
      exact (scans_signedExponent s).cons (isNumeric_of_exponent hc) fun s => by
        rw [exponentPart, if_pos hc]
    | false =>
      exact .done 0 fun more => by
        rw [List.cons_append, exponentPart, hc]
        rfl

theorem scans_scaled (negative : Bool) (significand : Nat) (tens : Int) (s : List Char) :
    Scans (scaled negative significand tens) s := by
  refine (scans_exponentPart s).bind (k := fun exponent rest =>
    (Double.ofScientific? negative significand (tens + exponent)).elim (.error .numberOutOfRange)
      fun x => .ok (.float x, rest)) (fun exponent rest => ?_) fun more => ?_
  · cases hx : Double.ofScientific? negative significand (tens + exponent) with
    | none => exact .error fun _ => rfl
    | some x => exact .done _ fun _ => rfl
  · rw [scaled]
    rcases exponentPart (s ++ more) with fault | ⟨exponent, rest⟩
    · rfl
    · dsimp only [Except.bind]
      cases Double.ofScientific? negative significand (tens + exponent) <;> rfl

theorem scans_fraction (negative : Bool) (significand dropped : Nat) (s : List Char) :
    Scans (fraction negative significand dropped) s := by
  cases s with
  | nil => exact .nil fun a rest h => nomatch h
  | cons c s =>
    -- The text is not empty, so the fault for a missing digit is the same for all longer texts.
    refine (scans_takeDigits significand (c :: s)).bind
      (k := fun taken rest =>
        if taken.2 = 0 && (dropDigits rest).1 = 0 then .error .invalidNumber
        else scaled negative taken.1 ((dropped : Int) - taken.2) (dropDigits rest).2)
      ?_ fun _ => rfl
    intro taken rest
    refine (scans_dropDigits rest).bind
      (k := fun lost rest =>
        if taken.2 = 0 && lost = 0 then .error .invalidNumber
        else scaled negative taken.1 ((dropped : Int) - taken.2) rest) ?_ fun _ => rfl
    intro lost rest
    cases taken.2 = 0 && lost = 0 with
    | true => exact .error fun _ => rfl
    | false => exact scans_scaled _ _ _ _

theorem scans_afterWhole (negative : Bool) (significand dropped : Nat) (s : List Char) :
    Scans (afterWhole negative significand dropped) s := by
  cases s with
  | nil =>
    refine .nil fun a rest h => ?_
    rw [afterWhole] at h
    split at h
    · cases h
      rfl
    · obtain ⟨t, ht, -⟩ := (scans_scaled negative significand dropped []).splits a rest h
      exact (List.append_eq_nil_iff.mp ht.symm).2
  | cons c s =>
    by_cases hpoint : c = '.'
    · exact (scans_fraction negative significand dropped s).cons (by simp [hpoint, isNumeric])
        fun s => by rw [afterWhole, if_pos hpoint]
    cases hwhole : dropped = 0 && c != 'e' && c != 'E' with
    | true =>
      exact .done _ fun more => by
        rw [List.cons_append, afterWhole, if_neg hpoint, if_pos hwhole]
    | false =>
      exact (scans_scaled negative significand dropped (c :: s)).same fun s => by
        rw [afterWhole, if_neg hpoint, hwhole]
        rfl

/-- Behind a zero there must not be another digit. -/
theorem Scans.zero {f g : List Char → Outcome α} (fault : Fault) {s : List Char} (hg : Scans g s)
    (h : ∀ s, f ('0' :: s) = if startsWithDigit s then .error fault else g s) :
    Scans f ('0' :: s) := by
  have hzero : ∀ c ∈ ['0'], isNumeric c = true := List.forall_mem_singleton.mpr rfl
  cases s with
  | nil =>
    refine hg.behind ['0'] rfl hzero (h []) fun hstops => ?_
    exact absurd (Stops.of_append hstops hzero) not_stops_nil
  | cons d s =>
    cases hd : d.isDigit with
    | true => exact .error fun more => (h (d :: s ++ more)).trans (if_pos hd)
    | false =>
      have hskip (more : List Char) : f ('0' :: d :: s ++ more) = g (d :: s ++ more) :=
        (h (d :: s ++ more)).trans (if_neg (by simp [startsWithDigit, hd]))
      exact hg.behind ['0'] rfl hzero (by simpa using hskip []) fun _ => hskip

/-- A number from behind its sign. -/
theorem scans_unsignedNumber (negative : Bool) (s : List Char) :
    Scans (unsignedNumber negative) s := by
  cases s with
  | nil => exact .nil fun a rest h => nomatch h
  | cons c s =>
    by_cases hzero : c = '0'
    · subst hzero
      exact (scans_afterWhole negative 0 0 s).zero .invalidNumber fun s => by
        rw [unsignedNumber, if_pos rfl]
    cases hdigit : c.isDigit with
    | true =>
      have hlost (significand : Nat) (s : List Char) : Scans
          (fun s => afterWhole negative significand (dropDigits s).1 (dropDigits s).2) s :=
        (scans_dropDigits s).bind (k := afterWhole negative significand)
          (fun lost rest => scans_afterWhole _ _ _ _) fun _ => by simp only [Except.bind]
      have hdigits : Scans (fun s => afterWhole negative (takeDigits (digitValue c) s).1
          (dropDigits (takeDigits (digitValue c) s).2.2).1
          (dropDigits (takeDigits (digitValue c) s).2.2).2) s :=
        (scans_takeDigits (digitValue c) s).bind
          (k := fun (taken : Nat × Nat) s =>
            afterWhole negative taken.1 (dropDigits s).1 (dropDigits s).2)
          (fun taken rest => hlost taken.1 rest) fun _ => by simp only [Except.bind]
      exact hdigits.cons (isNumeric_of_isDigit hdigit) fun s => by
        rw [unsignedNumber, if_neg hzero, if_pos hdigit]
    | false =>
      exact .error fun more => by
        rw [List.cons_append, unsignedNumber, if_neg hzero, hdigit]
        rfl

/-! ## Numbers that are passed over -/

/-- A part that passes over a piece of a number makes nothing of it. -/
def passed (f : List Char → Except Fault (List Char)) (s : List Char) : Outcome Unit :=
  (f s).map ((), ·)

theorem scans_skipDigits (s : List Char) : Scans (passed skipDigits) s := by
  cases s with
  | nil => exact .nil fun a rest h => nomatch h
  | cons c s =>
    cases hc : c.isDigit with
    | true =>
      refine (scans_dropDigits (c :: s)).bind (k := fun _ rest => .ok ((), rest))
        (fun _ rest => .done _ fun _ => rfl) fun more => ?_
      simp [passed, skipDigits, startsWithDigit, hc, Except.map, Except.bind]
    | false =>
      exact .error fun more => by
        simp [passed, skipDigits, startsWithDigit, hc]
        rfl

theorem scans_skipSigned (s : List Char) : Scans (passed skipSigned) s := by
  cases s with
  | nil => exact .nil fun a rest h => nomatch h
  | cons c s =>
    cases hc : c = '+' || c = '-' with
    | true =>
      have hnumeric : isNumeric c = true := by
        rw [Bool.or_eq_true, decide_eq_true_eq, decide_eq_true_eq] at hc
        rcases hc with rfl | rfl <;> rfl
      exact (scans_skipDigits s).cons hnumeric fun s => by
        rw [passed, skipSigned, if_pos hc, passed]
    | false =>
      exact (scans_skipDigits (c :: s)).same fun s => by
        rw [passed, skipSigned, hc]
        rfl

theorem scans_skipExponent (s : List Char) : Scans (passed skipExponent) s := by
  cases s with
  | nil => exact .nil fun a rest h => by cases h; rfl
  | cons c s =>
    cases hc : c = 'e' || c = 'E' with
    | true =>
      exact (scans_skipSigned s).cons (isNumeric_of_exponent hc) fun s => by
        rw [passed, skipExponent, if_pos hc, passed]
    | false =>
      exact .done () fun more => by
        rw [List.cons_append, passed, skipExponent, hc]
        rfl

theorem scans_skipAfterWhole (s : List Char) : Scans (passed skipAfterWhole) s := by
  cases s with
  | nil => exact .nil fun a rest h => by cases h; rfl
  | cons c s =>
    by_cases hc : c = '.'
    · have hfraction : Scans
          (fun s => (passed skipDigits s).bind fun r => passed skipExponent r.2) s :=
        (scans_skipDigits s).bind (k := fun _ => passed skipExponent)
          (fun _ rest => scans_skipExponent rest) fun _ => rfl
      refine hfraction.cons (by simp [hc, isNumeric]) fun s => ?_
      rw [passed, skipAfterWhole, if_pos hc, passed]
      cases skipDigits s <;> rfl
    · exact (scans_skipExponent (c :: s)).same fun s => by
        rw [passed, skipAfterWhole, if_neg hc, passed]

/-- A number that is passed over, from behind its sign. -/
theorem scans_skipUnsigned (s : List Char) : Scans (passed skipUnsigned) s := by
  cases s with
  | nil => exact .nil fun a rest h => nomatch h
  | cons c s =>
    by_cases hzero : c = '0'
    · subst hzero
      refine (scans_skipAfterWhole s).zero .invalidNumber fun s => ?_
      rw [passed, skipUnsigned, if_pos rfl]
      split <;> rfl
    cases hdigit : c.isDigit with
    | true =>
      have hdigits : Scans (fun s => passed skipAfterWhole (dropDigits s).2) s :=
        (scans_dropDigits s).bind (k := fun _ => passed skipAfterWhole)
          (fun _ rest => scans_skipAfterWhole rest) fun _ => rfl
      exact hdigits.cons (isNumeric_of_isDigit hdigit) fun s => by
        rw [passed, skipUnsigned, if_neg hzero, if_pos hdigit, passed]
    | false =>
      exact .error fun more => by
        rw [List.cons_append, passed, skipUnsigned, if_neg hzero, hdigit]
        rfl

end SyntaxForest.Document
