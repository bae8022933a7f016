import Propositional.Transform.Negation

/-!
# Propositional — duality

The dual of a formula of conjunctions and disjunctions has the two connectives
exchanged and every literal complemented, and the same shape. Its value is the
complement (`eval_dualize`), so on negation normal forms it is another way to
negate.
-/

namespace Propositional

/-- Exchanges conjunction and disjunction and leaves the other connectives alone. -/
def Connective.exchange : Connective → Connective
  | and => or
  | or => and
  | op => op

namespace Connective

@[simp]
theorem exchange_exchange (op : Connective) : op.exchange.exchange = op := by
  cases op <;> rfl

@[simp]
theorem exchange_beq_exchange (op op' : Connective) :
    (op.exchange == op'.exchange) = (op == op') := by
  cases op <;> cases op' <;> rfl

end Connective

namespace Formula

/-- Exchanges conjunction and disjunction and complements every literal. -/
def dualize : Formula → Formula
  | literal name negated => literal name (!negated)
  | binary op a b negated =>
    match op.dual with
    | .ok dual => binary dual a.dualize b.dualize negated
    | .error _ => binary op a.dualize b.dualize negated

@[simp]
theorem dualize_literal (name : String) (negated : Bool) :
    (literal name negated).dualize = literal name (!negated) := rfl

/-- The dual of a connective without one is the connective itself. -/
@[simp]
theorem dualize_binary (op : Connective) (a b : Formula) (negated : Bool) :
    (binary op a b negated).dualize = binary op.exchange a.dualize b.dualize negated := by
  cases op <;> rfl

theorem dualize_join (op : Connective) (a b : Formula) :
    (join op a b).dualize = join op.exchange a.dualize b.dualize :=
  dualize_binary op a b false

@[simp]
theorem dualize_dualize (f : Formula) : f.dualize.dualize = f := by
  induction f with
  | literal => simp
  | binary op a b negated iha ihb => simp [iha, ihb]

@[simp]
theorem names_dualize (f : Formula) : f.dualize.names = f.names := by
  induction f with
  | literal => rfl
  | binary op a b negated iha ihb => simp [iha, ihb]

/-- **Duality.** Where only conjunction and disjunction are left, exchanging them and complementing
every literal complements the value. -/
theorem eval_dualize {f : Formula} (h : f.IsExpanded) (v : Valuation) :
    f.dualize.eval v = !f.eval v := by
  induction f with
  | literal name negated => simp [dualize, eval]
  | binary op a b negated iha ihb =>
    obtain ⟨hOp, ha, hb⟩ := h
    -- De Morgan for either connective, and the mark of the root complements both sides
    rcases hOp with rfl | rfl <;>
      simp only [dualize, Connective.dual, eval, iha ha, ihb hb, Connective.apply] <;>
      cases a.eval v <;> cases b.eval v <;> cases negated <;> rfl

end Formula

end Propositional
