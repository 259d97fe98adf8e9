import SyntaxForest.Proofs.Document.RoundTrip
import SyntaxForest.Proofs.Numeric.Rounding
import SyntaxForest.Proofs.Tree.Checked
import SyntaxForest.Tree.Build

/-!
# Trees that can be built

`Built` says that a tree is the result of calls of the constructors, each on parts that were built
before it; where a constructor can refuse its arguments, the call must have succeeded. Only the
constructors of `float` and `double` literals take numbers that their kinds cannot read, so `Built`
has the numbers that they may be given as a parameter.

With finite numbers, the trees that can be built are exactly those that pass the check, and with any
numbers nothing else can go wrong (`check_iff_built`).
-/

namespace SyntaxForest

open Numeric

/-- The trees that can be built when the constructors of `float` and `double` literals are given
numbers that are admitted. -/
inductive Built (Admits : (F : Format) → Binary F → Prop) : Node → Prop
  | identifier (name : String) : Built Admits (.name name)
  | constant (kind : Primitive) (value : Int64) :
    Built Admits (.expr (.const (.ofInt kind value)))
  | withFloat {kind : Primitive} {value : Double} {c : Constant}
    (hc : Constant.ofDouble kind value = .ok c) : Built Admits (.expr (.const c))
  | bool (value : Bool) : Built Admits (.expr (.const (.bool value)))
  | int (value : Int32) : Built Admits (.expr (.const (.int value)))
  | long (value : Int64) : Built Admits (.expr (.const (.long value)))
  | float {value : Single} (hvalue : Admits Format.single value) :
    Built Admits (.expr (.const (.float value)))
  | double {value : Double} (hvalue : Admits Format.double value) :
    Built Admits (.expr (.const (.double value)))
  | primitive (kind : Primitive) : Built Admits (.type (.primitive kind))
  | reference {id : String} (hid : Built Admits (.name id)) :
    Built Admits (.type (.reference id))
  | setDims {ty ty' : Ty} {dims : List Expr} (hty : Built Admits (.type ty))
    (hdims : ∀ e ∈ dims, Built Admits (.expr e)) (hty' : ty.setDims dims = .ok ty') :
    Built Admits (.type ty')
  | call {func : Expr} {args : List Expr} (hfunc : Built Admits (.expr func))
    (hargs : ∀ e ∈ args, Built Admits (.expr e)) : Built Admits (.expr (.call func args))
  | index {var idx : Expr} (hvar : Built Admits (.expr var)) (hidx : Built Admits (.expr idx)) :
    Built Admits (.expr (.index var idx))
  | access {var field : Expr} (hvar : Built Admits (.expr var))
    (hfield : Built Admits (.expr field)) : Built Admits (.expr (.access var field))
  | cast {ty : Ty} {e : Expr} (hty : Built Admits (.type ty)) (he : Built Admits (.expr e)) :
    Built Admits (.expr (.cast ty e))
  | unary (op : UnaryOp) {e : Expr} (he : Built Admits (.expr e)) :
    Built Admits (.expr (.unary op e))
  | binary (op : BinaryOp) {left right : Expr} (hleft : Built Admits (.expr left))
    (hright : Built Admits (.expr right)) : Built Admits (.expr (.binary op left right))
  | assign (op : AssignOp) {lval rval : Expr} (hlval : Built Admits (.expr lval))
    (hrval : Built Admits (.expr rval)) : Built Admits (.expr (.assign op lval rval))
  | brk : Built Admits (.stmt .brk)
  | cont : Built Admits (.stmt .cont)
  | ret {value : Option Expr} (hvalue : ∀ e ∈ value, Built Admits (.expr e)) :
    Built Admits (.stmt (.ret value))
  | block {stats : List Stmt} (hstats : ∀ s ∈ stats, Built Admits (.stmt s)) :
    Built Admits (.block stats)
  | exprStmt {e : Expr} (he : Built Admits (.expr e)) : Built Admits (.stmt (.expr e))
  | ite {condition : Expr} {thenBranch : Stmt} {elseBranch : Option Stmt}
    (hcondition : Built Admits (.expr condition)) (hthen : Built Admits (.stmt thenBranch))
    (helse : ∀ s ∈ elseBranch, Built Admits (.stmt s)) :
    Built Admits (.stmt (.ite condition thenBranch elseBranch))
  | loop {condition : Expr} {body : Stmt} (hcondition : Built Admits (.expr condition))
    (hbody : Built Admits (.stmt body)) : Built Admits (.stmt (.loop condition body))
  | declarator {id : String} {init : Option Expr} (hid : Built Admits (.name id))
    (hinit : ∀ e ∈ init, Built Admits (.expr e)) : Built Admits (.declarator ⟨id, init⟩)
  | declaration {ty : Ty} {declarators : List Declarator} {d : Declaration}
    (hty : Built Admits (.type ty)) (hdeclarators : ∀ x ∈ declarators, Built Admits (.declarator x))
    (hd : Declaration.ofList ty declarators = .ok d) : Built Admits (.declaration d)
  | parameter {ty : Ty} {id : String} (hty : Built Admits (.type ty))
    (hid : Built Admits (.name id)) : Built Admits (.parameter ⟨ty, id⟩)
  | header {ty : Ty} {id : String} {params : List Parameter} (hty : Built Admits (.type ty))
    (hid : Built Admits (.name id)) (hparams : ∀ p ∈ params, Built Admits (.parameter p)) :
    Built Admits (.header ⟨ty, id, params⟩)
  | function {header : Header} {body : List Stmt} (hheader : Built Admits (.header header))
    (hbody : Built Admits (.block body)) : Built Admits (.function ⟨header, body⟩)
  | struct {id : String} {fields : List Declaration} (hid : Built Admits (.name id))
    (hfields : ∀ d ∈ fields, Built Admits (.declaration d)) : Built Admits (.struct ⟨id, fields⟩)

/-! ## Constructors that can refuse -/

theorem Constant.ofDouble_eq_ok {kind : Primitive} {value : Double} {c : Constant} :
    Constant.ofDouble kind value = .ok c ↔ c = ⟨kind, .float value⟩ ∧ c.validate = .ok () := by
  have hbind : Constant.ofDouble kind value =
      (Constant.validate ⟨kind, .float value⟩).map fun _ => ⟨kind, .float value⟩ := by
    cases hv : Constant.validate ⟨kind, .float value⟩ <;>
      simp [Constant.ofDouble, hv, bind, Except.bind, Except.map, pure, Except.pure]
  rw [hbind]
  cases hv : Constant.validate ⟨kind, .float value⟩ with
  | error e =>
    refine ⟨nofun, ?_⟩
    rintro ⟨rfl, hc⟩
    rw [hv] at hc
    cases hc
  | ok u =>
    constructor
    · rintro ⟨⟩
      exact ⟨rfl, hv⟩
    · rintro ⟨rfl, -⟩
      rfl

theorem Ty.setDims_eq_ok {ty ty' : Ty} {dims : List Expr} :
    ty.setDims dims = .ok ty' ↔ ty.dims = none ∧ ty' = ⟨ty.base, some dims⟩ := by
  obtain ⟨base, old⟩ := ty
  cases old <;> simp [Ty.setDims, eq_comm]

theorem Declaration.ofList_eq_ok {ty : Ty} {declarators : List Declarator} {d : Declaration} :
    Declaration.ofList ty declarators = .ok d ↔ declarators ≠ [] ∧ d = ⟨ty, declarators⟩ := by
  cases declarators <;> simp [Declaration.ofList, eq_comm]

/-- A finite number makes a `float` literal that its kind can read. -/
theorem Constant.validate_float {value : Single} (h : value.isFinite = true) :
    (Constant.float value).validate = .ok () := by
  obtain ⟨hfinite, hle⟩ := Binary.isFinite_convert_double h
  simp [Constant.validate, Constant.float, Primitive.isFloating, Primitive.inRange, hfinite, hle]

theorem Constant.validate_double {value : Double} (h : value.isFinite = true) :
    (Constant.double value).validate = .ok () := by
  simp [Constant.validate, Constant.double, Primitive.isFloating, Primitive.inRange, h]

/-! ## Trees that pass the check can be built -/

section

variable {Admits : (F : Format) → Binary F → Prop}

theorem Built.of_dims {base : TypeBase} {dims : Option (List Expr)}
    (hbase : Built Admits (.type ⟨base, none⟩))
    (hdims : ∀ e ∈ dims.getD [], Built Admits (.expr e)) : Built Admits (.type ⟨base, dims⟩) := by
  cases dims with
  | none => exact hbase
  | some es => exact .setDims hbase hdims rfl

/-- A node that is sound by itself can be built from its children. -/
theorem Built.of_children {n : Node} (hsound : n.sound) (h : ∀ m ∈ n.children, Built Admits m) :
    Built Admits n := by
  cases n with
  | expr e =>
    rw [Node.children] at h
    cases e with
    | ident id => exact .identifier id
    | const c =>
      obtain ⟨kind, value⟩ := c
      cases value with
      | int v => exact .constant kind v
      | float x => exact .withFloat (Constant.ofDouble_eq_ok.mpr ⟨rfl, hsound⟩)
    | call func args =>
      rw [Expr.children, List.forall_mem_cons, List.forall_mem_map] at h
      exact .call h.1 h.2
    | index var idx =>
      rw [Expr.children, List.forall_mem_cons, List.forall_mem_cons] at h
      exact .index h.1 h.2.1
    | access var field =>
      rw [Expr.children, List.forall_mem_cons, List.forall_mem_cons] at h
      exact .access h.1 h.2.1
    | cast ty e =>
      rw [Expr.children, List.forall_mem_cons, List.forall_mem_cons] at h
      exact .cast h.1 h.2.1
    | unary op e =>
      rw [Expr.children, List.forall_mem_cons] at h
      exact .unary op h.1
    | binary op left right =>
      rw [Expr.children, List.forall_mem_cons, List.forall_mem_cons] at h
      exact .binary op h.1 h.2.1
    | assign op lval rval =>
      rw [Expr.children, List.forall_mem_cons, List.forall_mem_cons] at h
      exact .assign op h.1 h.2.1
  | stmt s =>
    rw [Node.children] at h
    cases s with
    | brk => exact .brk
    | cont => exact .cont
    | ret value =>
      rw [Stmt.children, List.forall_mem_map] at h
      exact .ret (by simpa using h)
    | block stats =>
      rw [Stmt.children, List.forall_mem_map] at h
      exact .block h
    | expr e =>
      rw [Stmt.children, List.forall_mem_cons] at h
      exact .exprStmt h.1
    | decl d =>
      rw [Stmt.children, List.forall_mem_cons, List.forall_mem_map] at h
      exact .declaration h.1 h.2 (Declaration.ofList_eq_ok.mpr ⟨hsound, rfl⟩)
    | ite condition thenBranch elseBranch =>
      rw [Stmt.children, List.forall_mem_cons, List.forall_mem_cons, List.forall_mem_map] at h
      exact .ite h.1 h.2.1 (by simpa using h.2.2)
    | loop condition body =>
      rw [Stmt.children, List.forall_mem_cons, List.forall_mem_cons] at h
      exact .loop h.1 h.2.1
  | type ty =>
    obtain ⟨base, dims⟩ := ty
    rw [Node.children, Ty.children, List.forall_mem_append, List.forall_mem_map] at h
    cases base with
    | primitive kind => exact .of_dims (.primitive kind) h.2
    | reference id => exact .of_dims (.reference (.identifier id)) h.2
  | declarator d =>
    rw [Node.children, List.forall_mem_cons, List.forall_mem_map] at h
    exact .declarator h.1 (by simpa using h.2)
  | parameter p =>
    rw [Node.children, List.forall_mem_cons, List.forall_mem_cons] at h
    exact .parameter h.1 h.2.1
  | header d =>
    rw [Node.children, List.forall_mem_cons, List.forall_mem_cons, List.forall_mem_map] at h
    exact .header h.1 h.2.1 h.2.2
  | function f =>
    rw [Node.children, List.forall_mem_cons, List.forall_mem_cons] at h
    exact .function h.1 h.2.1
  | struct s =>
    rw [Node.children, List.forall_mem_cons, List.forall_mem_map] at h
    exact .struct h.1 h.2

theorem Built.of_check {n : Node} (h : n.check = .ok ()) : Built Admits n := by
  revert h
  apply Node.induction (Q := fun n => n.check = .ok () → Built Admits n) ?_ n
  intro n ih h
  obtain ⟨hsound, hchildren⟩ := (Node.check_eq_ok_iff n).mp h
  exact .of_children hsound fun m hm => ih m hm (hchildren m hm)

/-! ## What can be built is sound but for some literals -/

/-- What a constructor demands of a node: a literal is sound, or it is a `float` or `double` literal
of an admitted number; every other node is sound. -/
def Node.Admitted (Admits : (F : Format) → Binary F → Prop) (n : Node) : Prop :=
  n.sound ∨ (∃ x, Admits Format.single x ∧ n = .expr (.const (.float x))) ∨
    ∃ x, Admits Format.double x ∧ n = .expr (.const (.double x))

theorem Built.admitted {n : Node} (h : Built Admits n) : n.Admitted Admits := by
  cases h with
  | withFloat hc => exact .inl (Constant.ofDouble_eq_ok.mp hc).2
  | float hvalue => exact .inr (.inl ⟨_, hvalue, rfl⟩)
  | double hvalue => exact .inr (.inr ⟨_, hvalue, rfl⟩)
  | declaration _ _ hd =>
    obtain ⟨hne, rfl⟩ := Declaration.ofList_eq_ok.mp hd
    exact .inl hne
  | constant | bool | int | long => exact .inl rfl
  | _ => exact .inl trivial

/-- The children of a tree that was built were built before it. -/
theorem Built.children {n : Node} (h : Built Admits n) : ∀ m ∈ n.children, Built Admits m := by
  cases h with
  | identifier | constant | withFloat | bool | int | long | float | double | brk | cont =>
    simp [Node.children, Expr.children, Stmt.children]
  | primitive kind => simp [Node.children, Ty.children, Ty.primitive]
  | reference hid => simpa [Node.children, Ty.children, Ty.reference] using hid
  | @setDims ty ty' dims hty hdims hty' =>
    obtain ⟨-, rfl⟩ := Ty.setDims_eq_ok.mp hty'
    rw [Node.children, Ty.children, List.forall_mem_append, List.forall_mem_map]
    refine ⟨?_, hdims⟩
    cases ty.base with
    | primitive kind => simp
    | reference id => simpa using Built.identifier id
  | declaration hty hdeclarators hd =>
    obtain ⟨-, rfl⟩ := Declaration.ofList_eq_ok.mp hd
    simpa [Node.children, Stmt.children] using ⟨hty, hdeclarators⟩
  | call | index | access | cast | unary | binary | assign =>
    simp_all [Node.children, Expr.children]
  | ret | block | exprStmt | ite | loop => simp_all [Node.children, Stmt.children]
  | declarator | parameter | header | function | struct => simp_all [Node.children]

/-- Every part of a tree that was built is as its constructor demands. -/
theorem Built.everywhere {n : Node} (h : Built Admits n) :
    n.Everywhere (Node.Admitted Admits) := by
  revert h
  apply Node.induction (Q := fun n => Built Admits n → n.Everywhere (Node.Admitted Admits)) ?_ n
  intro n ih h
  rw [Node.everywhere_iff]
  exact ⟨h.admitted, fun m hm => ih m hm (h.children m hm)⟩

end

/-- A literal of a finite number is sound, so nothing can be built from such that is not. -/
theorem Node.sound_of_admitted {n : Node} (h : n.Admitted fun _ x => x.isFinite = true) :
    n.sound := by
  rcases h with h | ⟨x, hx, rfl⟩ | ⟨x, hx, rfl⟩
  · exact h
  · exact Constant.validate_float hx
  · exact Constant.validate_double hx

theorem Built.check {n : Node} (h : Built (fun _ x => x.isFinite = true) n) :
    n.check = .ok () := by
  rw [Node.check_eq_ok_iff_everywhere]
  exact fun m hm => Node.sound_of_admitted (h.everywhere m hm)

/-! ## What can go wrong -/

/-- A fractional payload of a kind that allows one is only refused because of its range. -/
theorem Constant.violation?_floating {kind : Primitive} {value : Double} {e : TreeError}
    (hkind : kind.isFloating = true)
    (h : (Node.expr (.const ⟨kind, .float value⟩)).violation? = some e) :
    e = .floatOutOfRange kind (doubleText value) := by
  rw [Node.violation?, Constant.violation?, Constant.validate] at h
  cases hrange : kind.inRange value <;> simp_all

/-- A tree that was built from any numbers fails the check only because of a `float` or `double`
literal of a number that is not finite. -/
theorem Built.check_eq_error {n : Node} {e : TreeError} (h : Built (fun _ _ => True) n)
    (he : n.check = .error e) :
    (∃ x : Single, x.isFinite = false ∧ .expr (.const (.float x)) ∈ n.parts ∧
      e = .floatOutOfRange .float (doubleText (x.convert Format.double))) ∨
    ∃ x : Double, x.isFinite = false ∧ .expr (.const (.double x)) ∈ n.parts ∧
      e = .floatOutOfRange .double (doubleText x) := by
  rw [Node.check_eq_first] at he
  obtain ⟨m, hm, hviolation⟩ := List.mem_filterMap.mp (firstOf_eq_error he)
  have unsound : ¬ m.sound := by
    intro hsound
    rw [Node.violation?_eq_none.mpr hsound] at hviolation
    cases hviolation
  rcases h.everywhere m hm with hsound | ⟨x, -, rfl⟩ | ⟨x, -, rfl⟩
  · exact absurd hsound unsound
  · refine .inl ⟨x, ?_, hm, Constant.violation?_floating rfl hviolation⟩
    exact Bool.eq_false_iff.mpr fun hx => unsound (Constant.validate_float hx)
  · refine .inr ⟨x, ?_, hm, Constant.violation?_floating rfl hviolation⟩
    exact Bool.eq_false_iff.mpr fun hx => unsound (Constant.validate_double hx)

/-- The check accepts exactly the trees that can be built when `float` and `double` literals are
given finite numbers. Every tree that is read from a document is one of them, and a tree that was
built from any numbers fails the check only because of such a literal. -/
theorem check_iff_built :
    (∀ n : Node, n.check = .ok () ↔ Built (fun _ x => x.isFinite = true) n) ∧
    (∀ source forest, Forest.parse source = .ok forest →
      ∀ n ∈ forest, Built (fun _ x => x.isFinite = true) n) ∧
    ∀ n e, Built (fun _ _ => True) n → n.check = .error e →
      (∃ x : Single, x.isFinite = false ∧ .expr (.const (.float x)) ∈ n.parts ∧
        e = .floatOutOfRange .float (doubleText (x.convert Format.double))) ∨
      ∃ x : Double, x.isFinite = false ∧ .expr (.const (.double x)) ∈ n.parts ∧
        e = .floatOutOfRange .double (doubleText x) := by
  refine ⟨fun n => ⟨Built.of_check, Built.check⟩, ?_, fun n e => Built.check_eq_error⟩
  intro source forest hparse n hn
  have hcheck := (Forest.parse_eq_ok.mp hparse).2
  exact .of_check (checkEach_eq_ok.mp hcheck n hn)

/-- An array type whose size is a half or infinite. With a half it can be built and read from its
document; with infinity it is built, and refused because of the size. -/
theorem check_iff_built_array :
    let half : Double := .ofBits .double 0x3fe0000000000000
    let infinity : Double := .ofBits .double 0x7ff0000000000000
    let array (x : Double) : Node := .type ⟨.reference "t", some [.const (.double x)]⟩
    (array half).check = .ok () ∧
    (∀ n ∈ [array half], Built (fun _ x => x.isFinite = true) n) ∧
    (array infinity).check = .error (.floatOutOfRange .double "inf") ∧
    (∃ x : Double, x.isFinite = false ∧ .expr (.const (.double x)) ∈ (array infinity).parts) ∧
    ¬ Built (fun _ x => x.isFinite = true) (array infinity) := by
  intro half infinity array
  have hrecovers : ∀ x ∈ Forest.fractions [array half], Document.Recovers x := by
    have hfractions : Forest.fractions [array half] = [half] := by decide +kernel
    have hhalf : Document.Recovers half := by decide +kernel
    simp [hfractions, hhalf]
  have hparse : Forest.parse (Forest.dump [array half]) = .ok [array half] :=
    Forest.parse_eq_ok.mpr ⟨Forest.decode_dump_eq_ok (by decide +kernel) hrecovers, rfl⟩
  have hdouble : Built (fun _ _ => True) (.expr (.const (.double infinity))) := .double trivial
  have hbuilt : Built (fun _ _ => True) (array infinity) :=
    .setDims (.reference (.identifier "t")) (by simpa using hdouble) rfl
  have hcheck : (array infinity).check =
      .error (.floatOutOfRange .double (doubleText infinity)) := rfl
  have hinf : doubleText infinity = "inf" := by decide +kernel
  refine ⟨rfl, check_iff_built.2.1 _ _ hparse, hinf ▸ hcheck, ?_, ?_⟩
  · rcases check_iff_built.2.2 _ _ hbuilt hcheck with ⟨x, -, -, he⟩ | ⟨x, hx, hmem, -⟩
    · cases he
    · exact ⟨x, hx, hmem⟩
  · intro h
    have hok := (check_iff_built.1 _).mpr h
    rw [hcheck] at hok
    cases hok

end SyntaxForest
