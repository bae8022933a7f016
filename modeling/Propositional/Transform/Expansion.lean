import Propositional.Valuation

/-!
# Propositional — expanding derived connectives

Exclusive or, implication and equivalence are written with conjunction,
disjunction and marks:

* `a ⊕ b` becomes `(a ∧ ¬b) ∨ (¬a ∧ b)`
* `a ⇒ b` becomes `¬a ∨ b`
* `a ⇔ b` becomes `(a ∧ b) ∨ (¬a ∧ ¬b)`

`Formula.expandRoot` does this at the root alone, `Formula.expand` everywhere.
Expanding commutes with flipping the root's mark, so `expand` may work from the
leaves up; `expand_eq_descend` says that this is the same as expanding the root
and then everything below it.
-/

namespace Propositional.Formula

/-- Writes the connective at the root with conjunction, disjunction and marks. The root keeps its
mark. -/
def expandRoot : Formula → Formula
  | binary .xor a b negated =>
    binary .or (join .and a b.negate) (join .and a.negate b) negated
  | binary .implies a b negated => binary .or a.negate b negated
  | binary .iff a b negated =>
    binary .or (join .and a b) (join .and a.negate b.negate) negated
  | f => f

/-- Writes every connective with conjunction, disjunction and marks. -/
def expand : Formula → Formula
  | literal name negated => literal name negated
  | binary op a b negated => (binary op a.expand b.expand negated).expandRoot

/-- A formula without exclusive or, implication and equivalence. -/
def IsExpanded : Formula → Prop
  | literal .. => True
  | binary op a b _ => (op = .and ∨ op = .or) ∧ a.IsExpanded ∧ b.IsExpanded

/-- Transforms both sides of the root, if it is a connective. -/
def descend (transform : Formula → Formula) : Formula → Formula
  | literal name negated => literal name negated
  | binary op a b negated => binary op (transform a) (transform b) negated

/-- The mark of the root plays no part in expanding. -/
@[simp]
theorem expand_negate (f : Formula) : f.negate.expand = f.expand.negate := by
  cases f with
  | literal => rfl
  | binary op => cases op <;> rfl

/-- Expanding is expanding the root and then everything below the new root. -/
theorem expand_eq_descend (f : Formula) : f.expand = f.expandRoot.descend expand := by
  cases f with
  | literal => rfl
  | binary op a b negated => cases op <;> simp [expand, expandRoot, descend, join]

/-- Expanding the root keeps the value. -/
@[simp]
theorem eval_expandRoot (f : Formula) (v : Valuation) : f.expandRoot.eval v = f.eval v := by
  cases f with
  | literal => rfl
  | binary op a b negated =>
    cases op <;> simp only [expandRoot, eval, eval_join, eval_negate, Connective.apply] <;>
      cases a.eval v <;> cases b.eval v <;> rfl

theorem IsExpanded.negate {f : Formula} (h : f.IsExpanded) : f.negate.IsExpanded := by
  cases f with
  | literal => trivial
  | binary => exact h

theorem isExpanded_expand (f : Formula) : f.expand.IsExpanded := by
  induction f with
  | literal => trivial
  | binary op a b negated iha ihb =>
    cases op <;> simp [expand, expandRoot, IsExpanded, join, iha, ihb, iha.negate, ihb.negate]

end Propositional.Formula
