import SyntaxForest.Proofs.Source.Text
import SyntaxForest.Proofs.Tree.Construction
import SyntaxForest.Session.Basic

/-!
# Runs of a session

A step that fails leaves the session as it was (`step_of_error`), so the steps that fail can be left
out of a run: the others are answered as before, and the run ends in the same state
(`run_succeeding`).

In a session that begins empty every node under a name is one that the constructors can build, and
no block is open in the renderer (`Consistent.after`). So a check asked for in a session can only
find a number out of range (`run_check`).
-/

namespace SyntaxForest.Session

open Numeric

/-! ## Steps that fail -/

/-- The state after a run. -/
def after : Session → List Step → Session
  | s, [] => s
  | s, request :: requests => (s.step request).2.after requests

/-- The steps of a run that succeed, each in the state in which it is taken. -/
def succeeding : Session → List Step → List Step
  | _, [] => []
  | s, request :: requests =>
    let (answer, s') := s.step request
    if answer.isOk then request :: s'.succeeding requests else s'.succeeding requests

theorem step_of_error {s : Session} {request : Step} {e : StepError}
    (h : (s.step request).1 = .error e) : (s.step request).2 = s := by
  rw [step] at h ⊢
  cases hresult : s.perform request with
  | error e => rfl
  | ok result =>
    rw [hresult] at h
    cases h

/-- A run without the steps that fail in it gives the same answers to the others and ends in the
same state. -/
theorem run_succeeding (s : Session) (requests : List Step) :
    s.run (s.succeeding requests) = (s.run requests).filter Except.isOk ∧
      s.after (s.succeeding requests) = s.after requests := by
  induction requests generalizing s with
  | nil => exact ⟨rfl, rfl⟩
  | cons request requests ih =>
    obtain ⟨hrun, hafter⟩ := ih (s.step request).2
    cases hanswer : (s.step request).1 with
    | ok answer =>
      have hok : (Except.ok answer : Result Answer).isOk = true := rfl
      simp [succeeding, run, after, hanswer, hok, hrun, hafter]
    | error e =>
      -- The state is the same with and without the step.
      have hstate := step_of_error hanswer
      rw [hstate] at hrun hafter
      have hfailed : (Except.error e : Result Answer).isOk = false := rfl
      simp [succeeding, run, after, hanswer, hfailed, hstate, hrun, hafter]

theorem run_append (s : Session) (requests more : List Step) :
    s.run (requests ++ more) = s.run requests ++ (s.after requests).run more := by
  induction requests generalizing s with
  | nil => rfl
  | cons request requests ih => simp only [List.cons_append, run, after, ih]

theorem length_run (s : Session) (requests : List Step) :
    (s.run requests).length = requests.length := by
  induction requests generalizing s with
  | nil => rfl
  | cons request requests ih => simp only [run, List.length_cons, ih]

/-! ## What a result is known to satisfy -/

/-- Whatever an action gives satisfies a condition; it may also fail. -/
def Ensures {α : Type} (P : α → Prop) (result : Result α) : Prop := ∀ a, result = .ok a → P a

namespace Ensures

variable {α β : Type} {P : α → Prop} {Q : β → Prop}

theorem pure {a : α} (h : P a) : Ensures P (Pure.pure a : Result α) := by
  rintro _ ⟨⟩
  exact h

theorem fail (e : StepError) : Ensures P (.error e : Result α) := nofun

theorem trivial (result : Result α) : Ensures (fun _ => True) result := fun _ _ => True.intro

theorem bind {x : Result α} {f : α → Result β} (hx : Ensures P x)
    (hf : ∀ a, P a → Ensures Q (f a)) : Ensures Q (x >>= f) := by
  intro b h
  cases x with
  | error e => cases h
  | ok a => exact hf a (hx a rfl) b h

theorem mapM {find : String → Result α} (hfind : ∀ name, Ensures P (find name))
    (names : List String) : Ensures (fun as => ∀ a ∈ as, P a) (names.mapM find) := by
  induction names with
  | nil => exact .pure (List.forall_mem_nil P)
  | cons name names ih =>
    rw [List.mapM_cons]
    exact .bind (hfind name) fun a ha => .bind ih fun as has =>
      .pure (List.forall_mem_cons.mpr ⟨ha, has⟩)

theorem optional {find : String → Result α} (hfind : ∀ name, Ensures P (find name))
    (name : Option String) :
    Ensures (fun value => ∀ a ∈ value, P a) (Session.optional find name) := by
  cases name with
  | none => exact .pure nofun
  | some name =>
    refine .bind (hfind name) fun a ha => .pure ?_
    rintro _ ⟨⟩
    exact ha

theorem built {x : Except TreeError α} (h : ∀ a, x = .ok a → P a) :
    Ensures P (Session.built x) := by
  cases x with
  | error e => exact .fail _
  | ok a => exact .pure (h a rfl)

end Ensures

theorem errorOf_eq_some {x : Except TreeError Unit} {e : TreeError} :
    errorOf x = some e ↔ x = .error e := by
  cases x <;> simp [errorOf]

/-! ## What a session holds -/

/-- What the constructors can build when no number is too much for them. -/
abbrev Buildable (n : Node) : Prop := Built (fun _ _ => True) n

theorem buildable_inBlocks (times : Nat) {st : Stmt} (h : Buildable (.stmt st)) :
    Buildable (.stmt (inBlocks times st)) := by
  induction times generalizing st with
  | zero => exact h
  | succ times ih => exact ih (.block (List.forall_mem_singleton.mpr h))

theorem buildable_underOperator (op : UnaryOp) (times : Nat) {e : Expr} (h : Buildable (.expr e)) :
    Buildable (.expr (underOperator op times e)) := by
  induction times generalizing e with
  | zero => exact h
  | succ times ih => exact ih (.unary op h)

/-- Every node under a name was built by the constructors, and the renderer is outside of all
blocks. -/
structure Consistent (s : Session) : Prop where
  built : ∀ entry ∈ s.nodes, Buildable entry.2
  outside : s.renderer.level = 0

namespace Consistent

variable {s : Session}

theorem erase (h : s.Consistent) (name : String) : (s.erase name).Consistent where
  built entry hentry := h.built entry (List.mem_filter.mp hentry).1
  outside := h.outside

theorem insert (h : s.Consistent) (name : String) {n : Node} (hn : Buildable n) :
    (s.insert name n).Consistent where
  built := List.forall_mem_cons.mpr ⟨hn, (h.erase name).built⟩
  outside := h.outside

theorem insertRoots {ns : List Node} (hns : ∀ n ∈ ns, Buildable n) (h : s.Consistent)
    (name : String) (place : Nat) : (insertRoots name place ns s).Consistent := by
  induction ns generalizing s place with
  | nil => exact h
  | cons n ns ih =>
    rw [List.forall_mem_cons] at hns
    exact ih hns.2 (h.insert _ hns.1) (place + 1)

/-! ### References -/

theorem node (h : s.Consistent) (name : String) : Ensures Buildable (s.node name) := by
  rw [Session.node]
  split
  · next n hn =>
    obtain ⟨before, behind, heq, -⟩ := List.lookup_eq_some_iff.mp hn
    have hmem : (name, n) ∈ s.nodes := by simp [heq]
    exact .pure (h.built (name, n) hmem)
  · exact .fail _

/-- A reference to a node of some sort gives what the node was made of. -/
theorem reference {α : Type} {sort : Node → Option α} {make : α → Node} (h : s.Consistent)
    (hsort : ∀ n a, sort n = some a → n = make a) (what name : String) :
    Ensures (fun a => Buildable (make a)) (s.reference sort what name) := by
  refine .bind (h.node name) fun n hn => ?_
  cases ha : sort n with
  | none => exact .fail _
  | some a =>
    rw [hsort n a ha] at hn
    exact .pure hn

theorem expr (h : s.Consistent) :
    ∀ name, Ensures (fun e => Buildable (.expr e)) (s.expr name) := by
  apply h.reference
  intro n e he
  cases n <;> cases he
  rfl

theorem stmt (h : s.Consistent) :
    ∀ name, Ensures (fun st => Buildable (.stmt st)) (s.stmt name) := by
  apply h.reference
  intro n st hst
  cases n <;> cases hst
  rfl

theorem type (h : s.Consistent) :
    ∀ name, Ensures (fun ty => Buildable (.type ty)) (s.type name) := by
  apply h.reference
  intro n ty hty
  cases n <;> cases hty
  rfl

theorem block (h : s.Consistent) :
    ∀ name, Ensures (fun stats => Buildable (.block stats)) (s.block name) := by
  apply h.reference
  intro n stats hstats
  cases n with
  | stmt st =>
    cases st <;> cases hstats
    rfl
  | _ => cases hstats

theorem declarator (h : s.Consistent) :
    ∀ name, Ensures (fun d => Buildable (.declarator d)) (s.declarator name) := by
  apply h.reference
  intro n d hd
  cases n <;> cases hd
  rfl

theorem declaration (h : s.Consistent) :
    ∀ name, Ensures (fun d => Buildable (.declaration d)) (s.declaration name) := by
  apply h.reference
  intro n d hd
  cases n with
  | stmt st =>
    cases st <;> cases hd
    rfl
  | _ => cases hd

theorem parameter (h : s.Consistent) :
    ∀ name, Ensures (fun p => Buildable (.parameter p)) (s.parameter name) := by
  apply h.reference
  intro n p hp
  cases n <;> cases hp
  rfl

theorem header (h : s.Consistent) :
    ∀ name, Ensures (fun d => Buildable (.header d)) (s.header name) := by
  apply h.reference
  intro n d hd
  cases n <;> cases hd
  rfl

/-! ### Steps -/

/-- What a session builds from named parts, the constructors can build. -/
theorem build (h : s.Consistent) (part : Part) : Ensures Buildable (s.build part) := by
  cases part with
  | identifier name => exact .pure (.identifier name)
  | primitive kind => exact .bind (.trivial _) fun k _ => .pure (.primitive k)
  | reference id => exact .bind (.trivial _) fun id _ => .pure (.reference (.identifier id))
  | constant kind value => exact .bind (.trivial _) fun k _ => .pure (.constant k value)
  | withFloat kind value =>
    exact .bind (.trivial _) fun k _ => .bind (.built fun c hc => hc) fun c hc =>
      .pure (.withFloat hc)
  | bool value => exact .pure (.bool value)
  | int value => exact .pure (.int value)
  | long value => exact .pure (.long value)
  | float value => exact .pure (.float True.intro)
  | double value => exact .pure (.double True.intro)
  | call func args =>
    exact .bind (h.expr func) fun func hfunc => .bind (.mapM h.expr args) fun args hargs =>
      .pure (.call hfunc hargs)
  | index var idx =>
    exact .bind (h.expr var) fun var hvar => .bind (h.expr idx) fun idx hidx =>
      .pure (.index hvar hidx)
  | access var field =>
    exact .bind (h.expr var) fun var hvar => .bind (h.expr field) fun field hfield =>
      .pure (.access hvar hfield)
  | cast ty e =>
    exact .bind (h.type ty) fun ty hty => .bind (h.expr e) fun e he => .pure (.cast hty he)
  | unary op e =>
    exact .bind (.trivial _) fun op _ => .bind (h.expr e) fun e he => .pure (.unary op he)
  | binary op left right =>
    exact .bind (.trivial _) fun op _ => .bind (h.expr left) fun left hleft =>
      .bind (h.expr right) fun right hright => .pure (.binary op hleft hright)
  | assign op lval rval =>
    exact .bind (.trivial _) fun op _ => .bind (h.expr lval) fun lval hlval =>
      .bind (h.expr rval) fun rval hrval => .pure (.assign op hlval hrval)
  | brk => exact .pure .brk
  | cont => exact .pure .cont
  | ret value => exact .bind (.optional h.expr value) fun value hvalue => .pure (.ret hvalue)
  | exprStmt e => exact .bind (h.expr e) fun e he => .pure (.exprStmt he)
  | ite condition thenBranch elseBranch =>
    exact .bind (h.expr condition) fun c hc => .bind (h.stmt thenBranch) fun t ht =>
      .bind (.optional h.stmt elseBranch) fun f hf => .pure (.ite hc ht hf)
  | loop condition body =>
    exact .bind (h.expr condition) fun c hc => .bind (h.stmt body) fun body hbody =>
      .pure (.loop hc hbody)
  | block stats => exact .bind (.mapM h.stmt stats) fun stats hstats => .pure (.block hstats)
  | declarator id init =>
    exact .bind (.trivial _) fun id _ => .bind (.optional h.expr init) fun init hinit =>
      .pure (.declarator (.identifier id) hinit)
  | declaration ty declarators =>
    exact .bind (h.type ty) fun ty hty => .bind (.mapM h.declarator declarators) fun ds hds =>
      .bind (.built fun d hd => hd) fun d hd => .pure (.declaration hty hds hd)
  | parameter ty id =>
    exact .bind (h.type ty) fun ty hty => .bind (.trivial _) fun id _ =>
      .pure (.parameter hty (.identifier id))
  | header ty id params =>
    exact .bind (h.type ty) fun ty hty => .bind (.trivial _) fun id _ =>
      .bind (.mapM h.parameter params) fun ps hps => .pure (.header hty (.identifier id) hps)
  | function head body =>
    exact .bind (h.header head) fun head hhead => .bind (h.block body) fun body hbody =>
      .pure (.function hhead hbody)
  | struct id fields =>
    exact .bind (.trivial _) fun id _ => .bind (.mapM h.declaration fields) fun ds hds =>
      .pure (.struct (.identifier id) hds)

theorem nested (h : s.Consistent) (name wrap op : String) (times : Nat) :
    Ensures Buildable (s.nested name wrap op times) := by
  refine .bind (h.node name) fun n hn => ?_
  split
  · cases n with
    | stmt st => exact .pure (buildable_inBlocks times hn)
    | _ => exact .fail _
  · refine .bind (.trivial _) fun op _ => ?_
    cases n with
    | expr e => exact .pure (buildable_underOperator op times hn)
    | _ => exact .fail _
  · exact .fail _

theorem visit (h : s.Consistent) (n : Node) :
    ({ s with renderer := n.visit s.renderer } : Session).Consistent where
  built := h.built
  outside := by
    rw [n.visit_eq]
    exact h.outside

/-- One step. -/
theorem perform (h : s.Consistent) (request : Step) :
    Ensures (fun result => result.2.Consistent) (s.perform request) := by
  cases request with
  | build out part => exact .bind (h.build part) fun n hn => .pure (h.insert out hn)
  | parse out source =>
    rw [Session.perform]
    split
    · exact .fail _
    · next forest hparse =>
      have hcheck := checkEach_eq_ok.mp (Forest.parse_eq_ok.mp hparse).2
      exact .pure (h.insertRoots (fun n hn => .of_check (hcheck n hn)) out 0)
  | copy of out => exact .bind (h.node of) fun n hn => .pure (h.insert out hn)
  | nest of out wrap op times =>
    exact .bind (h.nested of wrap op times) fun n hn => .pure (h.insert out hn)
  | setDims of dims =>
    refine .bind (h.type of) fun ty hty => .bind (.mapM h.expr dims) fun es hes => ?_
    split
    · next ty' hty' => exact .pure (h.insert of (.setDims hty hes hty'))
    · exact .pure h
  | validate of => exact .bind (.trivial _) fun _ _ => .pure h
  | check of => exact .bind (.trivial _) fun _ _ => .pure h
  | inspect of => exact .bind (.trivial _) fun _ _ => .pure h
  | equal a b => exact .bind (.trivial _) fun _ _ => .bind (.trivial _) fun _ _ => .pure h
  | release of => exact .bind (.trivial _) fun _ _ => .pure (h.erase of)
  | forest roots => exact .bind (.trivial _) fun _ _ => .pure h
  | visit of => exact .bind (.trivial _) fun n _ => .pure (h.visit n)
  | clear => exact .pure ⟨h.built, rfl⟩
  | take => exact .pure ⟨h.built, rfl⟩
  | unknown => exact .fail _

theorem step (h : s.Consistent) (request : Step) : (s.step request).2.Consistent := by
  rw [Session.step]
  split
  · next answer s' hresult => exact h.perform request _ hresult
  · exact h

/-- A whole run. -/
theorem after (h : s.Consistent) (requests : List Step) : (s.after requests).Consistent := by
  induction requests generalizing s with
  | nil => exact h
  | cons request requests ih => exact ih (h.step request)

/-- The check of a node in a session finds nothing but a number out of range. -/
theorem verdict (h : s.Consistent) {of : String} {e : TreeError}
    (hanswer : (s.step (.check of)).1 = .ok (.verdict (some e))) :
    ∃ kind value, e = .floatOutOfRange kind value := by
  cases hn : s.node of with
  | error fault =>
    have hstep : s.step (.check of) = (.error fault, s) := by
      rw [Session.step, Session.perform, hn]
      rfl
    rw [hstep] at hanswer
    cases hanswer
  | ok n =>
    have hstep : s.step (.check of) = (.ok (.verdict (errorOf n.check)), s) := by
      rw [Session.step, Session.perform, hn]
      rfl
    have hcheck : n.check = .error e := by simpa [hstep, errorOf_eq_some] using hanswer
    rcases (h.node of n hn).check_eq_error hcheck with ⟨x, -, -, rfl⟩ | ⟨x, -, -, rfl⟩
    · exact ⟨_, _, rfl⟩
    · exact ⟨_, _, rfl⟩

end Consistent

theorem consistent_empty : Consistent {} := ⟨List.forall_mem_nil _, rfl⟩

/-- Wherever a check is asked for in a session that begins empty, all that it can find is a number
out of range. -/
theorem run_check (before behind : List Step) (of : String) {e : TreeError}
    (hanswer : (run {} (before ++ .check of :: behind))[before.length]? =
      some (.ok (.verdict (some e)))) : ∃ kind value, e = .floatOutOfRange kind value := by
  have hlength : (run {} before).length = before.length := length_run {} before
  rw [run_append, List.getElem?_append_right (Nat.le_of_eq hlength), hlength,
    Nat.sub_self] at hanswer
  exact (consistent_empty.after before).verdict (Option.some.inj hanswer)

end SyntaxForest.Session
