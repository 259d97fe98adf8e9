import SyntaxForest.Proofs.Document.RoundTrip
import SyntaxForest.Proofs.Tree.Checked

/-!
# The first violation in a forest

The check of a tree reports its first violation (`Node.check_eq_first`), since its walk keeps what
it found (`Node.examine_eq`). The trees of a document are checked one after the other, so a document
is refused for the first violation of the first tree that has one
(`check_reports_first_violation`).
-/

namespace SyntaxForest

theorem checkEach_eq_findSome? (ns : List Node) :
    checkEach Node.check ns = match ns.findSome? fun n => n.violations.head? with
      | none => .ok ()
      | some e => .error e := by
  induction ns with
  | nil => rfl
  | cons n ns ih =>
    rw [checkEach, Node.check_eq_first, List.findSome?_cons]
    cases n.violations with
    | nil => exact ih
    | cons e es => rfl

/-- The walk of the check leaves an error alone, whatever it meets afterwards, and finds the first
violation otherwise. So a tree passes the check exactly when a traversal in source order meets no
violation, and else the first one is reported. A document that can be decoded gives the whole forest
exactly when none of its trees has a violation, and else the first violation of the first tree that
has one. -/
theorem check_reports_first_violation :
    (∀ (n : Node) (slot : Option TreeError), n.examine slot = slot.or n.violations.head?) ∧
    (∀ n : Node, n.check = match n.violations with
      | [] => .ok ()
      | e :: _ => .error e) ∧
    ∀ source forest, Forest.decode source = .ok forest →
      Forest.parse source = match forest.findSome? fun n => n.violations.head? with
        | none => .ok forest
        | some e => .error (.invalid e) := by
  refine ⟨Node.examine_eq, Node.check_eq_first, ?_⟩
  intro source forest hdecode
  rw [Forest.parse, hdecode]
  simp only [Forest.check, checkEach_eq_findSome?]
  cases forest.findSome? fun n => n.violations.head? <;> rfl

/-- An empty declaration of an array type with an unreadable size, behind a sound tree and before
another unreadable literal: the declaration comes first, then what is inside its type. An error that
was found before it stays. -/
theorem check_reports_first_violation_array :
    let half : Numeric.Double := .ofBits .double 0x3fe0000000000000
    let empty : Node := .declaration ⟨⟨.primitive .int, some [.const ⟨.int, .float half⟩]⟩, []⟩
    let forest : Forest := [.name "a", empty, .expr (.const ⟨.byte, .float half⟩)]
    empty.violations = [.emptyDeclaration "int[<illegal type>]", .notAFloatKind .int] ∧
    empty.examine none = some (.emptyDeclaration "int[<illegal type>]") ∧
    empty.examine (some (.notAFloatKind .byte)) = some (.notAFloatKind .byte) ∧
    Forest.parse forest.dump = .error (.invalid (.emptyDeclaration "int[<illegal type>]")) := by
  intro half empty forest
  obtain ⟨slot, -, parse⟩ := check_reports_first_violation
  have hviolations : empty.violations =
      [.emptyDeclaration "int[<illegal type>]", .notAFloatKind .int] := by decide +kernel
  have hempty : empty.examine none = some (.emptyDeclaration "int[<illegal type>]") := by
    rw [slot, hviolations]
    rfl
  have hfull : empty.examine (some (.notAFloatKind .byte)) = some (.notAFloatKind .byte) := by
    rw [slot, Option.some_or]
  have hrecovers : ∀ x ∈ forest.fractions, Document.Recovers x := by
    have hfractions : forest.fractions = [half, half] := by decide +kernel
    have hhalf : Document.Recovers half := by decide +kernel
    simp [hfractions, hhalf]
  have hdecode : Forest.decode forest.dump = .ok forest :=
    Forest.decode_dump_eq_ok (by decide +kernel) hrecovers
  refine ⟨hviolations, hempty, hfull, (parse _ _ hdecode).trans ?_⟩
  have hname : (Node.name "a").violations = [] := by decide +kernel
  simp [forest, hname, hviolations]

end SyntaxForest
