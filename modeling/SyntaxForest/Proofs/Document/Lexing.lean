import SyntaxForest.Proofs.Document.Nesting
import SyntaxForest.Proofs.Document.Scanning

/-!
# What a reader makes of the front of a text

A document may break off anywhere. `Zone` says where: between the parts of a document, in a number,
in a quoted text, or behind a backslash in one. Only in a number does it matter to a reader whether
there is more to come, because no number shows its own end.

`Reader.Lexes` is what every reader keeps to. It takes a piece off the front, along which the zone
changes from one the reader may start in to one it may end in. And unless the text breaks off in a
number, the reader has either found that the text ends too early, or it finds the same in every
longer text.
-/

namespace SyntaxForest.Document

/-! ## Blanks -/

theorem skipBlanks_split (s : List Char) : ∃ blanks, Blank blanks ∧ s = blanks ++ skipBlanks s := by
  induction s with
  | nil => exact ⟨[], Blank.nil, rfl⟩
  | cons c s ih =>
    obtain ⟨blanks, hb, hs⟩ := ih
    rw [skipBlanks]
    split
    · next hc =>
      exact ⟨c :: blanks, List.forall_mem_cons.mpr ⟨hc, hb⟩, by rw [List.cons_append, ← hs]⟩
    · exact ⟨[], Blank.nil, rfl⟩

theorem blank_of_skipBlanks {s : List Char} (h : skipBlanks s = []) : Blank s := by
  obtain ⟨blanks, hb, hs⟩ := skipBlanks_split s
  rw [h, List.append_nil] at hs
  exact hs ▸ hb

theorem skipBlanks_more {s : List Char} (h : skipBlanks s ≠ []) (more : List Char) :
    skipBlanks (s ++ more) = skipBlanks s ++ more := by
  induction s with
  | nil => exact absurd rfl h
  | cons c s ih =>
    rw [skipBlanks] at h
    rw [List.cons_append, skipBlanks, skipBlanks]
    split
    · next hc =>
      rw [if_pos hc] at h
      exact ih h
    · rfl

/-! ## Zones -/

/-- Where a text breaks off. -/
inductive Zone
  | outside
  | number
  | inside
  | escape
  deriving DecidableEq

namespace Zone

/-- The zone behind a character that no number goes on with. -/
def start (c : Char) : Zone :=
  if c = '"' then inside else if c = '-' || c.isDigit then number else outside

/-- The zone behind one more character. -/
def next : Zone → Char → Zone
  | outside, c => start c
  | number, c => if isNumeric c then number else start c
  | inside, c => if c = '"' then outside else if c = '\\' then escape else inside
  | escape, _ => inside

/-- The zone behind a text. -/
def after (z : Zone) (t : List Char) : Zone := t.foldl next z

@[simp] theorem after_nil (z : Zone) : z.after [] = z := rfl

@[simp] theorem after_cons (z : Zone) (c : Char) (t : List Char) :
    z.after (c :: t) = (z.next c).after t := rfl

theorem after_append (z : Zone) (t u : List Char) : z.after (t ++ u) = (z.after t).after u :=
  List.foldl_append

/-- The zones in which a part of a document may begin. -/
def Between (z : Zone) : Prop := z = outside ∨ z = number

theorem between_outside : Between outside := .inl rfl

theorem between_number : Between number := .inr rfl

/-- Where a part may begin, it does not matter which part went before. -/
theorem Between.next_eq {z : Zone} (hz : z.Between) {c : Char} (hc : isNumeric c = false) :
    z.next c = start c := by
  rcases hz with rfl | rfl
  · rfl
  · simp [next, hc]

/-- Brackets, commas and colons. -/
def isMark (c : Char) : Bool :=
  c = '[' || c = ']' || c = '\x7b' || c = '\x7d' || c = ',' || c = ':'

theorem Between.next_mark {z : Zone} (hz : z.Between) {c : Char} (hc : isMark c = true) :
    z.next c = outside := by
  simp only [isMark, Bool.or_eq_true, decide_eq_true_eq] at hc
  rcases hc with ((((rfl | rfl) | rfl) | rfl) | rfl) | rfl <;> exact hz.next_eq (by decide)

theorem Between.next_digit {z : Zone} (hz : z.Between) {c : Char}
    (hc : c = '-' ∨ c.isDigit = true) : z.next c = number := by
  have hquote : c ≠ '"' := by
    rintro rfl
    revert hc
    decide
  rcases hz with rfl | rfl
  · simp [next, start, hquote, hc]
  · rcases hc with rfl | hc
    · rfl
    · simp [next, isNumeric, hc]

theorem Between.next_blank {z : Zone} (hz : z.Between) {c : Char} (hc : isBlank c = true) :
    z.next c = outside := by
  simp only [isBlank, Bool.or_eq_true, decide_eq_true_eq] at hc
  rcases hc with ((rfl | rfl) | rfl) | rfl <;> exact hz.next_eq (by decide)

theorem outside_after_blank {blanks : List Char} (hb : Blank blanks) :
    outside.after blanks = outside := by
  induction blanks with
  | nil => rfl
  | cons c blanks ih =>
    rw [after_cons, between_outside.next_blank (hb c List.mem_cons_self)]
    exact ih fun d hd => hb d (List.mem_cons_of_mem _ hd)

theorem Between.after_blank {z : Zone} (hz : z.Between) {blanks : List Char} (hb : Blank blanks) :
    (z.after blanks).Between := by
  cases blanks with
  | nil => exact hz
  | cons c blanks =>
    rw [after_cons, hz.next_blank (hb c List.mem_cons_self)]
    exact .inl (outside_after_blank fun d hd => hb d (List.mem_cons_of_mem _ hd))

theorem after_numeric {t : List Char} (h : ∀ c ∈ t, isNumeric c = true) :
    number.after t = number := by
  induction t with
  | nil => rfl
  | cons c t ih =>
    rw [List.forall_mem_cons] at h
    rw [after_cons, next, if_pos h.1]
    exact ih h.2

end Zone

namespace Reader

variable {α β σ : Type}

/-! ## The contract -/

/-- The text ended before the reader did. -/
def EndsEarly (outcome : Outcome α) : Prop :=
  ∃ fault, outcome = .error fault ∧ fault.category = .ending

/-- What a reader makes of the text `s` in the zone `z`. What it takes leads to a zone as `Z`
demands for the value that was read; and unless the text breaks off in a number, it ends too early,
or nothing that follows changes what was read. -/
structure Lexes (p : Reader α) (z : Zone) (s : List Char) (Z : α → Zone → Prop) : Prop where
  splits : ∀ a rest, p.read s = some (a, rest) → ∃ t, s = t ++ rest ∧ Z a (z.after t)
  settled : z.after s ≠ .number → EndsEarly (p.run s) ∨
    ∀ more, p.read (s ++ more) = (p.read s).map fun (a, rest) => (a, rest ++ more)

theorem run_of_read {p : Reader α} {s rest : List Char} {a : α} (h : p.read s = some (a, rest)) :
    p.run s = .ok (a, rest) := by
  rw [read] at h
  cases hrun : p.run s with
  | error e => simp [hrun, Except.toOption] at h
  | ok result => simpa [hrun, Except.toOption] using h

namespace Lexes

variable {p : Reader α} {z : Zone} {s : List Char} {Y : α → Zone → Prop} {Z : β → Zone → Prop}

theorem mono {Y' : α → Zone → Prop} (h : p.Lexes z s Y) (hY : ∀ a z', Y a z' → Y' a z') :
    p.Lexes z s Y' where
  splits a rest hread := by
    obtain ⟨t, ht, hzone⟩ := h.splits a rest hread
    exact ⟨t, ht, hY a _ hzone⟩
  settled := h.settled

theorem congr {q : Reader α} (h : p.Lexes z s Y) (hrun : ∀ s, q.run s = p.run s) :
    q.Lexes z s Y := by
  have hread (s : List Char) : q.read s = p.read s := by rw [read, hrun, read]
  refine ⟨?_, ?_⟩
  · simpa only [hread] using h.splits
  · simpa only [hread, hrun] using h.settled

/-- A reader that never gives anything does not give anything of a longer text either. -/
theorem of_gives (h : p.Gives fun _ => False) : p.Lexes z s Y := by
  have hnone (s : List Char) : p.read s = none :=
    Option.eq_none_iff_forall_ne_some.mpr fun result hread => h s result.1 result.2 hread
  refine ⟨fun a rest hread => ?_, fun _ => .inr fun more => ?_⟩
  · rw [hnone] at hread
    cases hread
  · rw [hnone, hnone]
    rfl

theorem fail (fault : Fault) : (fail fault : Reader α).Lexes z s Y := of_gives (.fail fault)

theorem next {atEnd : Fault} {take : Char → Except Fault α} (hend : atEnd.category = .ending)
    (h : ∀ c rest a, s = c :: rest → take c = .ok a → Y a (z.next c)) :
    (next atEnd take).Lexes z s Y := by
  cases s with
  | nil => exact ⟨fun a rest hread => (nomatch hread), fun _ => .inl ⟨atEnd, rfl, hend⟩⟩
  | cons c s =>
    refine ⟨fun a rest hread => ?_, fun _ => .inr fun more => ?_⟩
    · rw [read_next_cons] at hread
      cases htake : take c with
      | error e => simp [htake, Except.toOption] at hread
      | ok b =>
        simp only [htake, Except.toOption, Option.map_some, Option.some.injEq,
          Prod.mk.injEq] at hread
        obtain ⟨rfl, rfl⟩ := hread
        exact ⟨[c], rfl, h c s b rfl htake⟩
    · rw [List.cons_append, read_next_cons, read_next_cons]
      cases (take c).toOption <;> rfl

theorem anyChar {atEnd : Fault} (hend : atEnd.category = .ending) :
    (anyChar atEnd).Lexes z s fun c z' => s.head? = some c ∧ z' = z.next c := by
  refine next hend ?_
  rintro c rest d rfl hd
  cases hd
  exact ⟨rfl, rfl⟩

theorem look {atEnd : Fault} {choose : Char → Reader α} (hend : atEnd.category = .ending)
    (h : ∀ c rest, s = c :: rest → (choose c).Lexes z (c :: rest) Y) :
    (look atEnd choose).Lexes z s Y := by
  cases s with
  | nil => exact ⟨fun a rest hread => (nomatch hread), fun _ => .inl ⟨atEnd, rfl, hend⟩⟩
  | cons c s => exact ⟨(h c s rfl).splits, (h c s rfl).settled⟩

/-- What was read is read from every longer text, too. -/
theorem read_more (h : p.Lexes z s Y) (hzone : z.after s ≠ .number) {a : α} {rest : List Char}
    (hread : p.read s = some (a, rest)) (more : List Char) :
    p.read (s ++ more) = some (a, rest ++ more) := by
  rcases h.settled hzone with ⟨fault, herror, -⟩ | hmore
  · rw [run_of_read hread] at herror
    cases herror
  · rw [hmore, hread]
    rfl

/-- What was read decides how to go on; whoever goes on does so in the zone that was reached. -/
theorem follow {q : α → Next β} (hp : p.Lexes z s Y)
    (hq : ∀ a rest z', p.read s = some (a, rest) → Y a z' → match q a with
      | .done b => Z b z'
      | .refuse _ => True
      | .more r => r.Lexes z' rest Z) : (p.follow q).Lexes z s Z := by
  cases hread : p.read s with
  | none =>
    refine ⟨fun b rest hfollow => ?_, fun hzone => ?_⟩
    · rw [read_follow, hread] at hfollow
      cases hfollow
    rcases hp.settled hzone with ⟨fault, hrun, hend⟩ | hmore
    · exact .inl ⟨fault, by simp [Reader.follow, hrun], hend⟩
    · refine .inr fun more => ?_
      rw [read_follow, read_follow, hmore, hread]
      rfl
  | some result =>
    obtain ⟨a, middle⟩ := result
    obtain ⟨t, hs, hzone⟩ := hp.splits a middle hread
    have hnext := hq a middle _ hread hzone
    cases hqa : q a with
    | done b =>
      rw [hqa] at hnext
      refine ⟨fun b' rest hfollow => ?_, fun hend => .inr fun more => ?_⟩
      · simp only [read_follow, hread, Option.bind_some, hqa, Option.some.injEq,
          Prod.mk.injEq] at hfollow
        obtain ⟨rfl, rfl⟩ := hfollow
        exact ⟨t, hs, hnext⟩
      · simp [read_follow, hread, hp.read_more hend hread, hqa]
    | refuse fault =>
      refine ⟨fun b rest hfollow => ?_, fun hend => .inr fun more => ?_⟩
      · simp [read_follow, hread, hqa] at hfollow
      · simp [read_follow, hread, hp.read_more hend hread, hqa]
    | more r =>
      rw [hqa] at hnext
      have hafter : z.after s = (z.after t).after middle := by rw [hs, Zone.after_append]
      refine ⟨fun b rest hfollow => ?_, fun hend => ?_⟩
      · simp only [read_follow, hread, Option.bind_some, hqa] at hfollow
        obtain ⟨u, hu, hzone'⟩ := hnext.splits b rest hfollow
        exact ⟨t ++ u, by rw [hs, hu, List.append_assoc], by rwa [Zone.after_append]⟩
      · rcases hnext.settled (hafter ▸ hend) with ⟨fault, herror, hending⟩ | hsettled
        · exact .inl ⟨fault, by simp [Reader.follow, run_of_read hread, hqa, herror], hending⟩
        · refine .inr fun more => ?_
          simp [read_follow, hread, hp.read_more hend hread, hqa, hsettled]

theorem map {f : α → β} (hp : p.Lexes z s Y) (hf : ∀ a z', Y a z' → Z (f a) z') :
    (p.map f).Lexes z s Z :=
  hp.follow fun a _ z' _ ha => hf a z' ha

theorem bind {q : α → Reader β} (hp : p.Lexes z s Y)
    (hq : ∀ a z' rest, Y a z' → (q a).Lexes z' rest Z) : (p.bind q).Lexes z s Z :=
  hp.follow fun a rest z' _ ha => hq a z' rest ha

theorem andThen {q : Reader β} (hp : p.Lexes z s Y)
    (hq : ∀ a z' rest, Y a z' → q.Lexes z' rest Z) : (p.andThen q).Lexes z s Z :=
  hp.bind hq

/-- A step that is repeated keeps an invariant of its state and the zone until it ends. -/
theorem iterate {step : σ → Reader (σ ⊕ α)} {I : σ → Zone → Prop}
    (hstep : ∀ state z s, I state z →
      (step state).Lexes z s fun result z' => result.elim (I · z') (Y · z'))
    {state : σ} (hstate : I state z) : (iterate step state).Lexes z s Y := by
  -- Every step leaves less of the text.
  induction hn : s.length using Nat.strongRecOn generalizing s z state with
  | ind n ih =>
    have hrun (s : List Char) : (Reader.iterate step state).run s =
        ((step state).follow fun
          | .inr a => .done a
          | .inl state' => .more (Reader.iterate step state')).run s := by
      show iterateRun step state s = _
      rw [iterateRun]
      split
      · next h => simp [Reader.follow, h]
      · next h => simp [Reader.follow, h]
      · next h => simp [Reader.follow, h, Reader.iterate]
    refine congr (follow (hstep state z s hstate) ?_) hrun
    intro result rest z' hread hresult
    cases result with
    | inr a => exact hresult
    | inl state' =>
      exact ih rest.length (hn ▸ (step state).shorter (run_of_read hread)) hresult rfl

/-- Blanks lead to a zone where a part may begin, and a text that has only blanks ends too early. -/
theorem afterBlanks (hz : z.Between) (hend : EndsEarly (p.run []))
    (h : ∀ c rest z', z'.Between → p.Lexes z' (c :: rest) Y) : p.afterBlanks.Lexes z s Y := by
  obtain ⟨blanks, hb, hs⟩ := skipBlanks_split s
  have hzone := hz.after_blank hb
  have hafter : z.after s = (z.after blanks).after (skipBlanks s) := by
    rw [← Zone.after_append, ← hs]
  cases hrest : skipBlanks s with
  | nil =>
    refine ⟨fun a rest hread => ?_, fun _ => .inl ?_⟩
    · rw [read_afterBlanks, hrest] at hread
      have hshorter := p.shorter (run_of_read hread)
      simp at hshorter
    · simpa [Reader.afterBlanks, hrest] using hend
  | cons c rest =>
    have hpart := h c rest _ hzone
    rw [← hrest] at hpart
    refine ⟨fun a rest' hread => ?_, fun hne => ?_⟩
    · obtain ⟨t, ht, hY⟩ := hpart.splits a rest' hread
      exact ⟨blanks ++ t, by rw [List.append_assoc, ← ht, ← hs], by rwa [Zone.after_append]⟩
    · rcases hpart.settled (hafter ▸ hne) with hearly | hmore
      · exact .inl hearly
      · refine .inr fun more => ?_
        rw [read_afterBlanks, read_afterBlanks, skipBlanks_more (by simp [hrest]), hmore]

theorem peek {atEnd : Fault} {choose : Char → Reader α} (hend : atEnd.category = .ending)
    (hz : z.Between) (h : ∀ c rest z', z'.Between → (choose c).Lexes z' (c :: rest) Y) :
    (peek atEnd choose).Lexes z s Y := by
  refine afterBlanks hz ⟨atEnd, rfl, hend⟩ fun c rest z' hz' => look hend ?_
  intro c' rest' hs
  cases hs
  exact h c rest z' hz'

end Lexes

/-- A character behind blanks. -/
theorem lexes_symbol {c : Char} (hc : Zone.isMark c = true) {atEnd otherwise : Fault}
    (hend : atEnd.category = .ending) {z : Zone} (hz : z.Between) {s : List Char} :
    (symbol c atEnd otherwise).Lexes z s fun _ z' => z'.Between := by
  refine .afterBlanks hz ⟨atEnd, rfl, hend⟩ fun d rest z' hz' => .next hend ?_
  intro d' rest' a hs ha
  cases hs
  split at ha
  · next h =>
    subst h
    exact .inl (hz'.next_mark hc)
  · cases ha

/-! ## Words -/

theorem lexes_word (c : Char) (cs : List Char) {z : Zone} {s : List Char} :
    (word c cs).Lexes z s fun _ z' => z' = z.after (c :: cs) := by
  have hletter (c : Char) {z : Zone} {s : List Char} :
      (letter c).Lexes z s fun _ z' => z' = z.next c := by
    refine .next rfl ?_
    intro d rest a hs ha
    split at ha
    · next h => rw [h]
    · cases ha
  induction cs generalizing c z s with
  | nil => exact hletter c
  | cons d cs ih =>
    refine .andThen (hletter c) ?_
    rintro - z' rest rfl
    exact ih d

/-- A word ends where a part may begin. -/
theorem lexes_word_between {c : Char} {cs : List Char}
    (h : ∀ z : Zone, z.Between → z.after (c :: cs) = .outside) {z : Zone} (hz : z.Between)
    {s : List Char} : (word c cs).Lexes z s fun _ z' => z'.Between := by
  refine (lexes_word c cs).mono ?_
  rintro - z' rfl
  exact .inl (h z hz)

theorem lexes_nullWord {z : Zone} (hz : z.Between) {s : List Char} :
    nullWord.Lexes z s fun _ z' => z'.Between :=
  lexes_word_between (by rintro z (rfl | rfl) <;> decide) hz

theorem lexes_trueWord {z : Zone} (hz : z.Between) {s : List Char} :
    trueWord.Lexes z s fun _ z' => z'.Between :=
  lexes_word_between (by rintro z (rfl | rfl) <;> decide) hz

theorem lexes_falseWord {z : Zone} (hz : z.Between) {s : List Char} :
    falseWord.Lexes z s fun _ z' => z'.Between :=
  lexes_word_between (by rintro z (rfl | rfl) <;> decide) hz

/-! ## Quoted texts -/

theorem hexDigit_plain {c : Char} (h : hexDigit? c ≠ none) :
    c ≠ '"' ∧ c ≠ '\\' ∧ c.utf8Size = 1 := by
  have hle : c ≤ 'f' := by
    rw [hexDigit?] at h
    repeat' split at h
    · next hc => exact Char.le_trans hc.2 (by decide)
    · next hc => exact hc.2
    · next hc => exact Char.le_trans hc.2 (by decide)
    · exact absurd rfl h
  refine ⟨?_, ?_, ?_⟩
  · rintro rfl
    exact h (by decide)
  · rintro rfl
    exact h (by decide)
  · rw [Char.utf8Size_eq_one_iff]
    exact UInt32.le_trans hle (by decide)

theorem hexNumber_digits {a b c d : Char} {n : Nat} (h : hexNumber? a b c d = some n) :
    ∀ e ∈ [a, b, c, d], hexDigit? e ≠ none := by
  simp only [hexNumber?, Option.pure_def, Option.bind_eq_bind, Option.bind_eq_some_iff] at h
  obtain ⟨i, hi, j, hj, k, hk, l, hl, -⟩ := h
  simp [hi, hj, hk, hl]

theorem byteCount_hexDigits {s : List Char} (h : ∀ c ∈ s, hexDigit? c ≠ none) :
    byteCount s = s.length := by
  induction s with
  | nil => rfl
  | cons c s ih =>
    rw [List.forall_mem_cons] at h
    rw [byteCount, (hexDigit_plain h.1).2.2, ih h.2, List.length_cons, Nat.add_comm]

theorem after_hexDigits {t : List Char} (h : ∀ c ∈ t, hexDigit? c ≠ none) :
    Zone.inside.after t = .inside := by
  induction t with
  | nil => rfl
  | cons c t ih =>
    rw [List.forall_mem_cons] at h
    obtain ⟨hquote, hbackslash, -⟩ := hexDigit_plain h.1
    rw [Zone.after_cons, Zone.next, if_neg hquote, if_neg hbackslash]
    exact ih h.2

theorem read_fourHex_eq_some {s rest : List Char} {n : Nat} (h : fourHex.read s = some (n, rest)) :
    ∃ t, s = t ++ rest ∧ t.length = 4 ∧ ∀ c ∈ t, hexDigit? c ≠ none := by
  have hrun := run_of_read h
  simp only [fourHex] at hrun
  split at hrun
  · next a b c d s =>
    split at hrun
    · next m hm =>
      cases hrun
      exact ⟨[a, b, c, d], rfl, rfl, hexNumber_digits hm⟩
    · cases hrun
  · split at hrun <;> cases hrun

/-- Four characters are left, or the text ends before them. -/
theorem run_fourHex (s : List Char) :
    (∃ a b c d s', s = a :: b :: c :: d :: s') ∨
      (s.length < 4 ∧ fourHex.run s =
        if byteCount s < 4 then .error .endInText else .error .invalidEscape) := by
  rcases s with _ | ⟨a, _ | ⟨b, _ | ⟨c, _ | ⟨d, s⟩⟩⟩⟩
  case cons.cons.cons.cons => exact .inl ⟨a, b, c, d, s, rfl⟩
  all_goals exact .inr ⟨by simp, rfl⟩

/-- Four hexadecimal digits. Where fewer characters are left, they end too early or one of them is
no digit, as it takes more than one byte. -/
theorem lexes_fourHex {s : List Char} : fourHex.Lexes .inside s fun _ z => z = .inside := by
  refine ⟨fun n rest h => ?_, fun _ => ?_⟩
  · obtain ⟨t, ht, -, hdigits⟩ := read_fourHex_eq_some h
    exact ⟨t, ht, after_hexDigits hdigits⟩
  rcases run_fourHex s with ⟨a, b, c, d, s, rfl⟩ | ⟨hshort, hrun⟩
  · refine .inr fun more => ?_
    simp only [read, fourHex, List.cons_append]
    cases hexNumber? a b c d <;> rfl
  by_cases hbytes : byteCount s < 4
  · exact .inl ⟨.endInText, by rw [hrun, if_pos hbytes], rfl⟩
  · refine .inr fun more => ?_
    have hnone : fourHex.read s = none := by
      rw [read, hrun, if_neg hbytes]
      rfl
    rw [hnone]
    refine Option.eq_none_iff_forall_ne_some.mpr fun result hread => ?_
    obtain ⟨t, ht, hlength, hdigits⟩ := read_fourHex_eq_some hread
    have hsub : s <+: t :=
      List.prefix_of_prefix_length_le ⟨more, rfl⟩ ⟨result.2, ht.symm⟩ (by omega)
    rw [byteCount_hexDigits fun c hc => hdigits c (hsub.mem hc)] at hbytes
    omega

theorem lexes_lowSurrogate (high : Nat) {s : List Char} :
    (lowSurrogate high).Lexes .inside s fun _ z => z = .inside := by
  have hexpect (c : Char) {z : Zone} {s : List Char} :
      (Reader.next .endInText fun d =>
        if d = c then .ok () else .error .surrogateEnd).Lexes z s fun _ z' => z' = z.next c := by
    refine .next rfl ?_
    intro d rest a hs ha
    split at ha
    · next h => rw [h]
    · cases ha
  refine .follow (.andThen (hexpect '\\') ?_) ?_ (Y := fun _ z => z = .inside)
  · rintro - z' rest rfl
    refine .andThen (hexpect 'u') ?_
    rintro - z' rest rfl
    exact lexes_fourHex
  · rintro low rest z' - rfl
    cases isLowSurrogate low <;> simp

theorem lexes_codePoint {s : List Char} : codePoint.Lexes .inside s fun _ z => z = .inside := by
  refine lexes_fourHex.follow ?_
  rintro n rest z' - rfl
  cases isLowSurrogate n with
  | true => simp
  | false =>
    cases isHighSurrogate n with
    | true => exact lexes_lowSurrogate n
    | false => simp

theorem lexes_shortEscape {s : List Char} : shortEscape.Lexes .escape s fun _ z => z = .inside :=
  .next rfl fun _ _ _ _ _ => rfl

/-- The letter of a long escape. -/
theorem lexes_escapeLetter {s : List Char} :
    (anyChar .endInText).Lexes .escape s fun _ z => z = .inside :=
  (Lexes.anyChar rfl).mono fun _ _ h => h.2

theorem lexes_escape {s : List Char} : escape.Lexes .escape s fun _ z => z = .inside := by
  refine .look rfl fun c rest _ => ?_
  split
  · refine lexes_escapeLetter.andThen ?_
    rintro - z' rest rfl
    exact lexes_codePoint
  · exact lexes_shortEscape

theorem lexes_skippedEscape {s : List Char} :
    skippedEscape.Lexes .escape s fun _ z => z = .inside := by
  refine .look rfl fun c rest _ => ?_
  split
  · refine .map (.andThen lexes_escapeLetter ?_) fun _ _ h => h
    rintro - z' rest rfl
    exact lexes_fourHex
  · exact lexes_shortEscape.map fun _ _ h => h

/-- One more character of a quoted text, or its closing quote. A text that is kept and one that is
passed over differ in what they make of a character and of an escape. -/
theorem lexes_quotedStep (closed : α) (taken : Char → σ) {escaped : Reader (σ ⊕ α)}
    (h : ∀ s, escaped.Lexes .escape s fun result z =>
      result.elim (fun _ => z = .inside) fun _ => z = .outside) {s : List Char} :
    ((anyChar .endInText).follow fun c =>
      if c = '"' then .done (.inr closed)
      else if c = '\\' then .more escaped
      else if isControl c then .refuse .controlCharacter
      else .done (.inl (taken c)) : Reader (σ ⊕ α)).Lexes .inside s fun result z =>
        result.elim (fun _ => z = .inside) fun _ => z = .outside := by
  refine Lexes.follow (Lexes.anyChar rfl) ?_
  rintro c rest z' - ⟨-, rfl⟩
  by_cases hquote : c = '"'
  · simp [hquote, Zone.next]
  by_cases hbackslash : c = '\\'
  · subst hbackslash
    exact h rest
  cases isControl c <;> simp [hquote, hbackslash, Zone.next]

/-- A quoted text, from behind its opening quote. -/
theorem lexes_text {s : List Char} : text.Lexes .inside s fun _ z => z = .outside := by
  refine .iterate (I := fun _ z => z = .inside) ?_ rfl
  rintro before z s rfl
  refine lexes_quotedStep _ (· :: before) fun s => ?_
  exact lexes_escape.map fun _ _ h => h

theorem lexes_skippedText {s : List Char} :
    skippedText.Lexes .inside s fun _ z => z = .outside := by
  refine .iterate (I := fun _ z => z = .inside) ?_ rfl
  rintro - z s rfl
  refine lexes_quotedStep () (fun _ => ()) fun s => ?_
  exact lexes_skippedEscape.map fun _ _ h => h

/-- A part that starts with a quote goes on inside a quoted text. -/
theorem lexes_quote_andThen {p : Reader α} {atEnd : Fault} (hend : atEnd.category = .ending)
    {z : Zone} (hz : z.Between) {s : List Char} {Y : α → Zone → Prop}
    (hp : ∀ s, p.Lexes .inside s Y) : ((anyChar atEnd).andThen p).Lexes z ('"' :: s) Y := by
  refine .andThen (Lexes.anyChar hend) ?_
  rintro c z' rest ⟨hc, rfl⟩
  cases hc
  rw [hz.next_eq (by decide)]
  exact hp rest

theorem lexes_quotedText {atEnd : Fault} (hend : atEnd.category = .ending) {z : Zone}
    (hz : z.Between) {s : List Char} :
    ((anyChar atEnd).andThen text).Lexes z ('"' :: s) fun _ z' => z'.Between :=
  lexes_quote_andThen hend hz fun _ => lexes_text.mono fun _ _ h => .inl h

/-- A bracket or comma leads to where a part may begin. -/
theorem lexes_mark {c : Char} (hc : Zone.isMark c = true) {atEnd : Fault}
    (hend : atEnd.category = .ending) {z : Zone} (hz : z.Between) {s : List Char} :
    (anyChar atEnd).Lexes z (c :: s) fun _ z' => z' = .outside := by
  refine (Lexes.anyChar hend).mono ?_
  rintro d z' ⟨hd, rfl⟩
  cases hd
  exact hz.next_mark hc

/-- A bracket or comma that has been seen is taken, and more is read behind it. -/
theorem lexes_mark_andThen {p : Reader α} {c : Char} (hc : Zone.isMark c = true) {atEnd : Fault}
    (hend : atEnd.category = .ending) {z : Zone} (hz : z.Between) {s : List Char}
    {Y : α → Zone → Prop} (hp : ∀ s, p.Lexes .outside s Y) :
    ((anyChar atEnd).andThen p).Lexes z (c :: s) Y := by
  refine (lexes_mark hc hend hz).andThen ?_
  rintro - z' rest rfl
  exact hp rest

/-! ## Numbers -/

theorem stops_of_after {s : List Char} (h : Zone.number.after s ≠ .number) : Stops s := by
  have hnot : ¬∀ c ∈ s, isNumeric c = true := fun hall => h (Zone.after_numeric hall)
  simpa [Stops] using hnot

/-- Within a number, nothing matters behind the character that ends it. -/
theorem lexes_of_scans {p : Reader α} {s : List Char} (h : Scans p.run s) :
    p.Lexes .number s fun _ z => z.Between := by
  refine ⟨fun a rest hread => ?_, fun hzone => .inr fun more => ?_⟩
  · obtain ⟨t, ht, hnumeric⟩ := h.splits a rest (run_of_read hread)
    exact ⟨t, ht, .inr (Zone.after_numeric hnumeric)⟩
  · rw [read, read, h.settled (stops_of_after hzone) more]
    cases p.run s <;> rfl

/-- A number may begin wherever a part may. -/
theorem Lexes.of_number {p : Reader α} {z : Zone} (hz : z.Between) {c : Char}
    (hc : c = '-' ∨ c.isDigit = true) {s : List Char}
    (h : p.Lexes .number (c :: s) fun _ z => z.Between) :
    p.Lexes z (c :: s) fun _ z => z.Between := by
  have hnext : z.next c = Zone.number.next c := by
    rw [hz.next_digit hc, Zone.between_number.next_digit hc]
  refine ⟨fun a rest hread => ?_, fun hzone => h.settled ?_⟩
  · obtain ⟨t, ht, hbetween⟩ := h.splits a rest hread
    refine ⟨t, ht, ?_⟩
    cases t with
    | nil => exact hz
    | cons d t =>
      obtain rfl : d = c := (List.cons.inj ht).1.symm
      rwa [Zone.after_cons, hnext]
  · rwa [Zone.after_cons, ← hnext]

theorem lexes_unsigned (negative : Bool) {s : List Char} :
    (unsigned negative).Lexes .number s fun _ z => z.Between :=
  lexes_of_scans (scans_unsignedNumber negative s)

theorem lexes_skippedUnsigned {s : List Char} :
    skippedUnsigned.Lexes .number s fun _ z => z.Between :=
  lexes_of_scans (scans_skipUnsigned s)

/-- A number with a sign. -/
theorem lexes_signed {p : Reader α} (hp : ∀ s, p.Lexes .number s fun _ z => z.Between)
    {s : List Char} :
    ((anyChar .endInValue).andThen p).Lexes .number ('-' :: s) fun _ z => z.Between := by
  refine .andThen (Lexes.anyChar rfl) ?_
  rintro c z' rest ⟨hc, rfl⟩
  cases hc
  exact hp rest

theorem lexes_number {z : Zone} (hz : z.Between) {c : Char} (hc : c = '-' ∨ c.isDigit = true)
    {s : List Char} : number.Lexes z (c :: s) fun _ z => z.Between := by
  refine .of_number hz hc (.look rfl fun d rest hs => ?_)
  split
  · next hd =>
    subst hd
    exact lexes_signed fun _ => lexes_unsigned true
  · exact lexes_unsigned false

end Reader

end SyntaxForest.Document
