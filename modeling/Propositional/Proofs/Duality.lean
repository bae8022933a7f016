import Propositional.NormalForm
import Propositional.Proofs.NegationNormal
import Propositional.Transform.Duality

/-!
# Propositional — the normal form of a negation

A formula and its negation differ in one mark, and the two ways to their negation normal
forms differ everywhere: where one meets a mark the other meets none, and what one exchanges
the other keeps. The results are mirror images nevertheless.

The reason is in the flag that goes down with a pending negation. On an expanded formula it
arrives at both sides of a connective alike, and it alone says whether the connective is
exchanged (`Formula.pushUnder_binary`); so another negation above exchanges every connective
and complements every literal, and does nothing else (`Formula.pushUnder_not`).

The shapes of the two normal forms are mirror images too (`Formula.isNormal_dualize`), since
what is inside one is outside the other.

Main result: `Formula.negationNormal_mirrors`.
-/

namespace Propositional

/-! ## The other form -/

namespace NormalForm

/-- The normal form with the two connectives exchanged. -/
def dual : NormalForm → NormalForm
  | cnf => dnf
  | dnf => cnf

theorem outer_dual (form : NormalForm) : form.dual.outer = form.outer.exchange := by
  cases form <;> rfl

theorem inner_dual (form : NormalForm) : form.dual.inner = form.inner.exchange := by
  cases form <;> rfl

end NormalForm

namespace Formula

variable {op : Connective} {a b f : Formula}

/-! ## Shapes -/

theorem isGroupOf_dualize (op : Connective) (f : Formula) :
    f.dualize.isGroupOf op.exchange = f.isGroupOf op := by
  induction f with
  | literal => rfl
  | binary op' a b negated iha ihb => simp [isGroupOf, iha, ihb]

/-- Clauses become terms, and a conjunction of clauses becomes a disjunction of terms. -/
theorem isNormal_dualize (form : NormalForm) (f : Formula) :
    f.dualize.isNormal form.dual = f.isNormal form := by
  induction f with
  | literal => rfl
  | binary op a b negated iha ihb =>
    -- a formula without the outer connective at its root is a group as a whole
    have hGroup := isGroupOf_dualize form.inner (binary op a b negated)
    rw [dualize_binary, ← form.inner_dual] at hGroup
    rw [dualize_binary, isNormal, isNormal, hGroup, iha, ihb, form.outer_dual,
      Connective.exchange_beq_exchange]

/-! ## Moving negations -/

/-- In an expanded formula whatever arrives at a connective, its own mark and what is pending above,
decides whether it is exchanged and goes on to both sides. -/
theorem pushUnder_binary (hOp : op = .and ∨ op = .or) (a b : Formula) (negated pending : Bool) :
    (binary op a b negated).pushUnder pending =
      join (if negated ^^ pending then op.exchange else op) (a.pushUnder (negated ^^ pending))
        (b.pushUnder (negated ^^ pending)) := by
  rw [pushUnder.eq_def]
  dsimp only
  cases negated ^^ pending with
  | false => rfl
  | true => rcases hOp with rfl | rfl <;> rfl

/-- Another negation above an expanded formula turns the result into its dual. -/
theorem pushUnder_not (h : f.IsExpanded) (pending : Bool) :
    f.pushUnder (!pending) = (f.pushUnder pending).dualize := by
  induction f generalizing pending with
  | literal name negated => simp [pushUnder]
  | binary op a b negated iha ihb =>
    obtain ⟨hOp, hLeft, hRight⟩ := h
    rw [pushUnder_binary hOp, pushUnder_binary hOp, Bool.xor_not, dualize_join]
    -- both sides get the opposite of what they got before
    rw [iha hLeft, ihb hRight]
    cases negated ^^ pending <;> simp

/-- The negation normal form of the negation is the dual of the negation normal form. -/
@[simp]
theorem negationNormal_negate (f : Formula) :
    f.negate.negationNormal = f.negationNormal.dualize := by
  rw [negationNormal, expand_negate, pushNegation, pushUnder_negate]
  exact pushUnder_not f.isExpanded_expand false

/-- **Negation is duality.** The negation normal form of a negation comes from that of the formula
by exchanging the connectives, all of which are conjunctions and disjunctions, and complementing the
literals, which stay where they are. So one is in conjunctive normal form exactly if the other is
in disjunctive normal form. -/
theorem negationNormal_mirrors (f : Formula) :
    f.negate.negationNormal = f.negationNormal.dualize ∧ f.negationNormal.IsExpanded ∧
    f.negate.negationNormal.names = f.negationNormal.names ∧
    (f.negationNormal.isNormal .cnf = true ↔ f.negate.negationNormal.isNormal .dnf = true) ∧
    (f.negationNormal.isNormal .dnf = true ↔ f.negate.negationNormal.isNormal .cnf = true) := by
  have hDual := f.negationNormal_negate
  -- as the negated formula comes out mirrored, its shape is the dual one
  have hShape : ∀ form : NormalForm,
      f.negate.negationNormal.isNormal form.dual = f.negationNormal.isNormal form := by
    intro form
    rw [hDual, isNormal_dualize]
  refine ⟨hDual, f.isExpanded_negationNormal, ?_, ?_, ?_⟩
  · rw [hDual, names_dualize]
  · rw [← hShape .cnf]
    rfl
  · rw [← hShape .dnf]
    rfl

/-- An equivalence and its negation: each has at the root what the other has inside. -/
example :
    let f := join .iff (var "A") (var "B")
    f.negationNormal = join .or (join .and (var "A") (var "B"))
      (join .and (notVar "A") (notVar "B")) ∧
    f.negate.negationNormal = join .and (join .or (notVar "A") (notVar "B"))
      (join .or (var "A") (var "B")) := by
  decide

end Formula

end Propositional
