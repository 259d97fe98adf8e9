import SyntaxForest.Proofs.Source.Statements

/-!
# Programs are told apart by their texts

The text of a statement, a function or a structure determines it, when its words, constants and
dimensions are plain, when every declaration declares something, and when no `else` stands behind a
branch that would take it for itself.
-/

namespace SyntaxForest

open Renderer

/-! ## Functions and structures -/

/-- The condition holds everywhere in the parameter. -/
abbrev Parameter.All (P : Node → Prop) (p : Parameter) : Prop := (Node.parameter p).Everywhere P

section

variable {P : Node → Prop} {r₁ r₂ : List Char}

/-- Two names are told apart, wherever no word goes on behind them. -/
theorem name_unique (hP : Readable P) {id₁ id₂ : String} (h₁ : (Node.name id₁).Everywhere P)
    (h₂ : (Node.name id₂).Everywhere P) (hr₁ : Stops isWordChar r₁) (hr₂ : Stops isWordChar r₂)
    (h : id₁.toList ++ r₁ = id₂.toList ++ r₂) : id₁ = id₂ ∧ r₁ = r₂ := by
  obtain ⟨hid, hr⟩ := (isWord_of_isName (hP.name h₁.self).1).unique
    (isWord_of_isName (hP.name h₂.self).1) hr₁ hr₂ h
  exact ⟨String.toList_inj.mp hid, hr⟩

theorem Parameter.unique (hP : Readable P) {p₁ p₂ : Parameter} (h₁ : p₁.All P) (h₂ : p₂.All P)
    (hr₁ : Stops isWordChar r₁) (hr₂ : Stops isWordChar r₂)
    (h : p₁.chars ++ r₁ = p₂.chars ++ r₂) : p₁ = p₂ ∧ r₁ = r₂ := by
  simp only [Parameter.chars, List.append_assoc, List.cons_append] at h
  obtain ⟨hty, h⟩ := Ty.unique hP (h₁.child (by simp [Node.children]))
    (h₂.child (by simp [Node.children])) (Stops.cons _ rfl) (Stops.cons _ rfl) h
  obtain ⟨hid, hr⟩ := name_unique hP (h₁.child (by simp [Node.children]))
    (h₂.child (by simp [Node.children])) hr₁ hr₂ (List.cons.inj h).2
  cases p₁
  cases p₂
  simp_all

theorem Parameter.begins (hP : Readable P) {p : Parameter} (hp : p.All P) (r : List Char) :
    BeginsSpine (p.chars ++ r) := by
  have hty : p.ty.All P := hp.child (by simp [Node.children])
  rw [Parameter.chars, List.append_assoc]
  exact Ty.begins hP hty _

theorem Header.unique (hP : Readable P) {h₁ h₂ : Header} (hall₁ : (Node.header h₁).Everywhere P)
    (hall₂ : (Node.header h₂).Everywhere P) (h : h₁.chars ++ r₁ = h₂.chars ++ r₂) :
    h₁ = h₂ ∧ r₁ = r₂ := by
  simp only [Header.chars, List.append_assoc, List.cons_append, List.nil_append] at h
  obtain ⟨hty, h⟩ := Ty.unique hP (hall₁.child (by simp [Node.children]))
    (hall₂.child (by simp [Node.children])) (Stops.cons _ rfl) (Stops.cons _ rfl) h
  obtain ⟨hid, h⟩ := name_unique hP (hall₁.child (by simp [Node.children]))
    (hall₂.child (by simp [Node.children])) (Stops.cons _ rfl) (Stops.cons _ rfl)
    (List.cons.inj h).2
  have part₁ : ∀ p ∈ h₁.params, p.All P := fun p hp =>
    hall₁.child (by simp [Node.children, hp])
  have part₂ : ∀ p ∈ h₂.params, p.All P := fun p hp =>
    hall₂.child (by simp [Node.children, hp])
  obtain ⟨hparams, hr⟩ := (separated_commas rfl rfl fun _ => Parameter.begins hP).listChars_unique
    (fun p₁ hp₁ p₂ hp₂ s₁ s₂ => Parameter.unique hP (part₁ p₁ hp₁) (part₂ p₂ hp₂))
    part₁ part₂ ⟨r₁, rfl⟩ ⟨r₂, rfl⟩ (List.cons.inj h).2
  cases h₁
  cases h₂
  simp_all

theorem FunctionDecl.unique (hP : ReadableProgram P) {f₁ f₂ : FunctionDecl} {level : Nat}
    (h₁ : (Node.function f₁).Everywhere P) (h₂ : (Node.function f₂).Everywhere P)
    (h : f₁.chars level ++ r₁ = f₂.chars level ++ r₂) : f₁ = f₂ ∧ r₁ = r₂ := by
  simp only [FunctionDecl.chars, List.append_assoc, List.cons_append] at h
  obtain ⟨hheader, h⟩ := Header.unique hP.toReadable (h₁.child (by simp [Node.children]))
    (h₂.child (by simp [Node.children])) h
  have body₁ : (Node.block f₁.body).Everywhere P := h₁.child (by simp [Node.children])
  have body₂ : (Node.block f₂.body).Everywhere P := h₂.child (by simp [Node.children])
  have part₁ : ∀ s ∈ f₁.body, s.All P := fun s hs =>
    body₁.child (by simp [Node.children, Stmt.children, hs])
  have part₂ : ∀ s ∈ f₂.body, s.All P := fun s hs =>
    body₂.child (by simp [Node.children, Stmt.children, hs])
  obtain ⟨hbody, hr⟩ := blockChars_unique (fun s hs => Stmt.unique hP (part₁ s hs)) part₂
    (List.cons.inj h).2
  cases f₁
  cases f₂
  simp_all

theorem StructDecl.unique (hP : ReadableProgram P) {s₁ s₂ : StructDecl}
    (h₁ : (Node.struct s₁).Everywhere P) (h₂ : (Node.struct s₂).Everywhere P)
    (h : s₁.chars ++ r₁ = s₂.chars ++ r₂) : s₁ = s₂ ∧ r₁ = r₂ := by
  simp only [StructDecl.chars, List.append_assoc, List.cons_append, List.nil_append,
    List.cons.injEq, true_and] at h
  obtain ⟨hid, h⟩ := name_unique hP.toReadable (h₁.child (by simp [Node.children]))
    (h₂.child (by simp [Node.children])) (Stops.cons _ rfl) (Stops.cons _ rfl) h
  have part₁ : ∀ d ∈ s₁.fields, d.All P := fun d hd => h₁.child (by simp [Node.children, hd])
  have part₂ : ∀ d ∈ s₂.fields, d.All P := fun d hd => h₂.child (by simp [Node.children, hd])
  simp only [List.cons.injEq, true_and] at h
  -- The fields always stand at the first level, and the brace that closes them at none.
  obtain ⟨hfields, hr⟩ := (separated_lines Declaration.chars 0).listChars_unique
    (fun d₁ hd₁ d₂ hd₂ t₁ t₂ ht₁ ht₂ => Declaration.unique hP (part₁ d₁ hd₁) (part₂ d₂ hd₂)
      (.inr (.inl ht₁)) (.inr (.inl ht₂)))
    (fun _ _ => trivial) (fun _ _ => trivial) ⟨r₁, rfl⟩ ⟨r₂, rfl⟩ h
  cases s₁
  cases s₂
  simp_all [indent, indentation]

end

/-! ## Plain programs -/

/-- A whole payload without a sign. -/
def Constant.isNatural (c : Constant) : Bool :=
  match c.value with
  | .int value => c.isWhole && decide (0 ≤ value.toInt)
  | .float _ => false

/-- What a plain program asks of the names, constants and dimensions of a single node. -/
def Node.isPlain : Node → Bool
  | .expr (.ident id) => isName id && !(expressionWords ++ statementWords).contains id
  | .expr (.const c) => c.isNatural
  | .type ⟨_, some []⟩ => false
  | _ => true

/-- Whether an `else` of the node itself belongs to it. -/
def Node.isSettled : Node → Bool
  | .stmt (.ite _ thenBranch (some _)) => !thenBranch.endsOpen
  | _ => true

/-- A program that passes the check and whose nodes are plain. -/
structure Node.Plain (n : Node) : Prop where
  check : n.check = .ok ()
  everywhere : n.Everywhere (·.isPlain = true)

/-- Every `else` in the program belongs to the `if` that is written nearest to it. -/
abbrev Node.Settled (n : Node) : Prop := n.Everywhere (·.isSettled = true)

/-- The three conditions of a readable program, on a single node. -/
def Node.IsClear (n : Node) : Prop := n.sound ∧ n.isPlain = true ∧ n.isSettled = true

theorem Node.Plain.clear {n : Node} (h : n.Plain) (hsettled : n.Settled) :
    n.Everywhere Node.IsClear :=
  (n.check_eq_ok_iff_everywhere.mp h.check).and (h.everywhere.and hsettled)

theorem Node.isPlain_name {id : String} :
    (Node.name id).isPlain = true ↔
      isName id = true ∧ id ∉ expressionWords ∧ id ∉ statementWords := by
  simp [Node.isPlain]

theorem Constant.isNatural_iff {c : Constant} :
    c.isNatural = true ↔ c.isWhole = true ∧ ∃ value, c.value = .int value ∧ 0 ≤ value.toInt := by
  obtain ⟨kind, value⟩ := c
  cases value <;> simp [isNatural, isWhole]

/-- A plain expression does not begin with a minus. -/
theorem Expr.minus_eq_false {e : Expr} (h : e.All Node.IsClear) : e.spine.minus = false := by
  match e with
  | .ident _ | .access _ _ | .cast _ _ | .unary _ _ | .binary _ _ _ | .assign _ _ _ => rfl
  | .call func args =>
    exact Expr.minus_eq_false (e := func) (h.child (by simp [Node.children, Expr.children]))
  | .index var idx =>
    exact Expr.minus_eq_false (e := var) (h.child (by simp [Node.children, Expr.children]))
  | .const c =>
    obtain ⟨hwhole, value, hvalue, hnonneg⟩ := Constant.isNatural_iff.mp h.self.2.1
    show (unsigned c.literal.toList).1 = false
    rcases Constant.isWhole_cases hwhole with ⟨-, hlit⟩ | ⟨-, hlit⟩ | ⟨v, -, hv, hlit⟩
    · rw [hlit]
      rfl
    · rw [hlit]
      rfl
    · have hvv : v = value := by simpa [hvalue] using hv.symm
      rw [hlit, unsigned_intText, hvv]
      exact decide_eq_false (by omega)

theorem readableProgram_isClear : ReadableProgram Node.IsClear where
  name h := ⟨(Node.isPlain_name.mp h.2.1).1, (Node.isPlain_name.mp h.2.1).2.1⟩
  const h := (Constant.isNatural_iff.mp h.2.1).1
  dims {ty} h := by
    obtain ⟨base, dims⟩ := ty
    rintro rfl
    cases h.2.1
  neg h := Expr.minus_eq_false (h.child (by simp [Node.children, Expr.children]))
  word h := (Node.isPlain_name.mp h.2.1).2.2
  declares h := h.1
  settled h := by simpa [Node.isSettled] using h.2.2

/-- Plain and settled statements, functions and structures are the same when their source texts
are. -/
theorem Node.settled_render_inj :
    (∀ s₁ s₂ : Stmt, (Node.stmt s₁).Plain → (Node.stmt s₂).Plain → (Node.stmt s₁).Settled →
      (Node.stmt s₂).Settled → (Node.stmt s₁).render = (Node.stmt s₂).render → s₁ = s₂) ∧
    (∀ f₁ f₂ : FunctionDecl, (Node.function f₁).Plain → (Node.function f₂).Plain →
      (Node.function f₁).Settled → (Node.function f₂).Settled →
      (Node.function f₁).render = (Node.function f₂).render → f₁ = f₂) ∧
    (∀ t₁ t₂ : StructDecl, (Node.struct t₁).Plain → (Node.struct t₂).Plain →
      (Node.struct t₁).Settled → (Node.struct t₂).Settled →
      (Node.struct t₁).render = (Node.struct t₂).render → t₁ = t₂) := by
  have hP := readableProgram_isClear
  refine ⟨?_, ?_, ?_⟩
  · intro s₁ s₂ h₁ h₂ hsettled₁ hsettled₂ h
    have hchars : s₁.chars 0 ++ [] = s₂.chars 0 ++ [] :=
      congrArg (· ++ []) ((Node.render_eq_iff _ _).mp h)
    exact (Stmt.unique hP (h₁.clear hsettled₁) 0 s₂ [] [] (h₂.clear hsettled₂) (.inl rfl)
      (.inl rfl) hchars).1
  · intro f₁ f₂ h₁ h₂ hsettled₁ hsettled₂ h
    have hchars : f₁.chars 0 ++ [] = f₂.chars 0 ++ [] :=
      congrArg (· ++ []) ((Node.render_eq_iff _ _).mp h)
    exact (FunctionDecl.unique hP (h₁.clear hsettled₁) (h₂.clear hsettled₂) hchars).1
  · intro t₁ t₂ h₁ h₂ hsettled₁ hsettled₂ h
    have hchars : t₁.chars ++ [] = t₂.chars ++ [] :=
      congrArg (· ++ []) ((Node.render_eq_iff _ _).mp h)
    exact (StructDecl.unique hP (h₁.clear hsettled₁) (h₂.clear hsettled₂) hchars).1

/-- A loop around two branches, a function with an array and an initial value, and a structure, each
with a number written once as zero and once as the number that wraps around to it. -/
theorem Node.settled_render_inj_wrapped :
    let number (value : Int) : Expr := .const ⟨.long, .int (.ofInt value)⟩
    let field (value : Int) : Declaration :=
      ⟨⟨.reference "t", some [number value]⟩, [⟨"a", none⟩, ⟨"b", some (.ident "a")⟩]⟩
    let body (value : Int) : Stmt :=
      .loop (.ident "c") (.ite (.ident "a") (.block [.decl (field value), .brk])
        (some (.ite (.ident "b") (.ret (some (number value))) none)))
    let function (value : Int) : FunctionDecl :=
      ⟨⟨⟨.primitive .bool, none⟩, "f", [⟨⟨.primitive .int, none⟩, "c"⟩]⟩, [body value]⟩
    let struct (value : Int) : StructDecl := ⟨"s", [field value]⟩
    (Node.stmt (body 0)).render =
      "while (c) if (a) \x7b\n    t[0L] a b = a\n    break\n\x7d else if (b) return 0L" ∧
    body 0 = body 18446744073709551616 ∧ function 0 = function 18446744073709551616 ∧
      struct 0 = struct 18446744073709551616 :=
  ⟨by decide +kernel,
    Node.settled_render_inj.1 _ _ ⟨rfl, by decide +kernel⟩ ⟨rfl, by decide +kernel⟩
      (by decide +kernel) (by decide +kernel) (by decide +kernel),
    Node.settled_render_inj.2.1 _ _ ⟨rfl, by decide +kernel⟩ ⟨rfl, by decide +kernel⟩
      (by decide +kernel) (by decide +kernel) (by decide +kernel),
    Node.settled_render_inj.2.2 _ _ ⟨rfl, by decide +kernel⟩ ⟨rfl, by decide +kernel⟩
      (by decide +kernel) (by decide +kernel) (by decide +kernel)⟩

end SyntaxForest
