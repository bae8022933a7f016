import Propositional.Valuation

/-!
# Propositional — reordering operands

Two formulas are reorderings of each other if one becomes the other by
exchanging the sides of commutative connectives and by regrouping three operands
of an associative one, at any places. No mark and no connective changes, and no
operand crosses a mark or a connective of another kind. A reordering keeps the
meaning (`Reorders.eval_eq`).
-/

namespace Propositional

/-- The second formula is a reordering of the first. -/
inductive Reorders : Formula → Formula → Prop
  | refl (f : Formula) : Reorders f f
  | trans {f g k : Formula} (h : Reorders f g) (h' : Reorders g k) : Reorders f k
  | sides {op : Connective} {a a' b b' : Formula} {negated : Bool} (ha : Reorders a a')
    (hb : Reorders b b') : Reorders (.binary op a b negated) (.binary op a' b' negated)
  | swap {op : Connective} {a b : Formula} {negated : Bool} (hOp : op.isCommutative = true) :
    Reorders (.binary op a b negated) (.binary op b a negated)
  | toLeft {op : Connective} {a b c : Formula} {negated : Bool} (hOp : op.isAssociative = true) :
    Reorders (.binary op a (.join op b c) negated) (.binary op (.join op a b) c negated)
  | toRight {op : Connective} {a b c : Formula} {negated : Bool} (hOp : op.isAssociative = true) :
    Reorders (.binary op (.join op a b) c negated) (.binary op a (.join op b c) negated)

namespace Reorders

/-- A reordering has the same value everywhere. -/
theorem eval_eq {f g : Formula} (h : Reorders f g) (v : Valuation) : f.eval v = g.eval v := by
  induction h with
  | refl => rfl
  | trans _ _ ih ih' => exact ih.trans ih'
  | sides _ _ iha ihb => simp only [Formula.eval, iha, ihb]
  | swap hOp => simp only [Formula.eval, Connective.apply_comm hOp]
  | toLeft hOp => simp only [Formula.eval, Formula.eval_join, Connective.apply_assoc hOp]
  | toRight hOp => simp only [Formula.eval, Formula.eval_join, Connective.apply_assoc hOp]

/-- The names at the leaves are the same, in another order. -/
theorem names_perm {f g : Formula} (h : Reorders f g) : f.names.Perm g.names := by
  induction h with
  | refl => exact .refl _
  | trans _ _ ih ih' => exact ih.trans ih'
  | sides _ _ iha ihb => simpa using iha.append ihb
  | swap => simpa using List.perm_append_comm
  | toLeft => simp [Formula.join]
  | toRight => simp [Formula.join]

end Reorders

end Propositional
