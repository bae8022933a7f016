import Propositional.Proofs.Duality
import Propositional.Shuffle

/-!
# Propositional — rewritings lead to one normal form

Expanding, moving negations and disguising a connective all leave the negation normal form
as it is, not only up to meaning but tree for tree, and it does not matter how deep below
the root they are used. So whichever of them are used where, and in which order, the way
ends where it would have ended before.

Two facts carry this. At the root, one step of any kind leads to the same normal form
(`negationNormal_expandRoot`, `negationNormal_deMorgan`, `negationNormal_disguiseRoot`). And
the normal form of a formula depends on its sides through their normal forms only
(`negationNormal_sides`), also where a side is copied and one of the copies negated, because
the normal form of the negation is the dual of the normal form. What goes from a root to all
that is below follows by going from a root to its sides.

Main result: `Formula.rewriting_keeps_negationNormal`.
-/

namespace Propositional.Formula

variable {op : Connective} {a a' b b' f : Formula} {negated : Bool}

/-! ## One step at the root -/

theorem negationNormal_and (a b : Formula) :
    (join .and a b).negationNormal = join .and a.negationNormal b.negationNormal := rfl

theorem negationNormal_or (a b : Formula) :
    (join .or a b).negationNormal = join .or a.negationNormal b.negationNormal := rfl

/-- Expanding the root first changes nothing, since expansion does that anyway. -/
@[simp]
theorem negationNormal_expandRoot (f : Formula) :
    f.expandRoot.negationNormal = f.negationNormal := by
  -- IFF puts each side down twice, and `expand` has the sides expanded both times
  have hExpand : f.expandRoot.expand = f.expand := by
    cases f with
    | literal => rfl
    | binary op a b negated => cases op <;> simp [expandRoot, expand, join]
  rw [negationNormal, hExpand, negationNormal]

/-- A mark at the root and its opposite below are moved to the same places. -/
@[simp]
theorem negationNormal_deMorgan (f : Formula) : f.deMorgan.negationNormal = f.negationNormal := by
  unfold deMorgan
  split
  next op a b =>
    split
    next dual hDual =>
      have hMarked : (binary op a b true).negationNormal = (join op a b).negationNormal.dualize :=
        (join op a b).negationNormal_negate
      rw [hMarked]
      -- only conjunction and disjunction have a dual
      cases op <;> cases hDual <;>
        simp [negationNormal_and, negationNormal_or, dualize_join, Connective.exchange]
    next => rfl
  next => rfl

/-- Moving the mark at the root first changes nothing, whether it can be moved or not. -/
@[simp]
theorem negationNormal_pushNegationRoot (f : Formula) :
    f.pushNegationRoot.negationNormal = f.negationNormal := by
  unfold pushNegationRoot
  -- a mark on a connective is moved by expanding and exchanging; any other root is left
  split
  · rw [negationNormal_deMorgan, negationNormal_expandRoot]
  · rfl

/-- Expanding a disguise gives back what was disguised, or what De Morgan's law makes of it. -/
theorem negationNormal_disguiseRoot (f : Formula) :
    f.disguiseRoot.negationNormal = f.negationNormal := by
  unfold disguiseRoot
  split
  next a b negated =>
    -- a conjunction comes back from behind an implication as a disjunction of negations
    rw [← negationNormal_expandRoot]
    show (binary .or a.negate b.negate (!negated)).negationNormal = _
    cases negated with
    | false =>
      rw [← negationNormal_deMorgan]
      show (join .and a.negate.negate b.negate.negate).negationNormal = _
      rw [negate_negate, negate_negate]
      rfl
    | true => exact (binary .and a b true).negationNormal_deMorgan
  next a b negated =>
    rw [← negationNormal_expandRoot]
    show (binary .or a.negate.negate b negated).negationNormal = _
    rw [negate_negate]
  next => exact f.negationNormal_expandRoot

/-! ## Below the root -/

/-- Where expanding copies a side, one copy contributes its normal form and the other the dual. -/
theorem negationNormal_xor (a b : Formula) :
    (join .xor a b).negationNormal =
      join .or (join .and a.negationNormal b.negationNormal.dualize)
        (join .and a.negationNormal.dualize b.negationNormal) := by
  rw [← negationNormal_expandRoot]
  show (join .or (join .and a b.negate) (join .and a.negate b)).negationNormal = _
  simp only [negationNormal_and, negationNormal_or, negationNormal_negate]

/-- `a IMPLIES b` comes out as what `NOT a OR b` does, the left side mirrored. -/
theorem negationNormal_implies (a b : Formula) :
    (join .implies a b).negationNormal =
      join .or a.negationNormal.dualize b.negationNormal := by
  rw [← negationNormal_expandRoot]
  show (join .or a.negate b).negationNormal = _
  simp only [negationNormal_or, negationNormal_negate]

/-- `a IFF b` comes out as both sides, or both mirrored. -/
theorem negationNormal_iff (a b : Formula) :
    (join .iff a b).negationNormal =
      join .or (join .and a.negationNormal b.negationNormal)
        (join .and a.negationNormal.dualize b.negationNormal.dualize) := by
  rw [← negationNormal_expandRoot]
  show (join .or (join .and a b) (join .and a.negate b.negate)).negationNormal = _
  simp only [negationNormal_and, negationNormal_or, negationNormal_negate]

/-- The normal form depends on the sides through their normal forms only. -/
theorem negationNormal_sides (hLeft : a'.negationNormal = a.negationNormal)
    (hRight : b'.negationNormal = b.negationNormal) :
    (binary op a' b' negated).negationNormal = (binary op a b negated).negationNormal := by
  -- without a mark first; with one it is the dual of the same
  have hJoin : (join op a' b').negationNormal = (join op a b).negationNormal := by
    cases op <;>
      simp only [negationNormal_and, negationNormal_or, negationNormal_xor,
        negationNormal_implies, negationNormal_iff, hLeft, hRight]
  cases negated with
  | false => exact hJoin
  | true =>
    show (join op a' b').negate.negationNormal = (join op a b).negate.negationNormal
    rw [negationNormal_negate, negationNormal_negate, hJoin]

/-- Expanding everything first changes nothing. -/
theorem negationNormal_expand (f : Formula) : f.expand.negationNormal = f.negationNormal := by
  induction f with
  | literal => rfl
  | binary op a b negated iha ihb =>
    -- below the root by the induction, at the root by one step
    rw [expand, negationNormal_expandRoot]
    exact negationNormal_sides iha ihb

/-- Moving all the marks first changes nothing. -/
theorem negationNormal_pushNegation (f : Formula) :
    f.pushNegation.negationNormal = f.negationNormal := by
  -- the sides that moving a mark leaves need not be sides of the formula
  fun_induction pushNegation? f with
  | case1 f e h =>
    rw [pushNegationRoot?_eq] at h
    cases h
  | case2 f name negated h =>
    rw [pushNegationRoot?_eq, Except.ok.injEq] at h
    rw [pushNegation_eq_descend, ← negationNormal_pushNegationRoot f, h]
    rfl
  | case3 f op a b negated h hSides ihLeft ihRight =>
    rw [pushNegationRoot?_eq, Except.ok.injEq] at h
    rw [pushNegation_eq_descend, ← negationNormal_pushNegationRoot f, h]
    exact negationNormal_sides ihLeft ihRight

/-! ## At any place -/

/-- What leaves the normal form as it is at the root does so at every place. -/
theorem negationNormal_transformAt {transform : Formula → Formula}
    (h : ∀ f : Formula, (transform f).negationNormal = f.negationNormal) (path : List Side)
    (f : Formula) : (f.transformAt transform path).negationNormal = f.negationNormal := by
  -- down the path one side is rewritten at a time, and the root is what it was
  induction path generalizing f with
  | nil => exact h f
  | cons side path ih =>
    cases f with
    | literal => cases side <;> rfl
    | binary op a b negated =>
      cases side with
      | left => exact negationNormal_sides (ih a) rfl
      | right => exact negationNormal_sides rfl (ih b)

/-- **Rewriting keeps the negation normal form**, tree for tree. Whatever place of a formula is
expanded at the root or all over, freed of a mark at the root or of all marks, brought into negation
normal form or disguised, the negation normal form of the whole formula is the same tree. -/
theorem rewriting_keeps_negationNormal (path : List Side) (f : Formula) :
    (f.transformAt expandRoot path).negationNormal = f.negationNormal ∧
    (f.transformAt expand path).negationNormal = f.negationNormal ∧
    (f.transformAt pushNegationRoot path).negationNormal = f.negationNormal ∧
    (f.transformAt pushNegation path).negationNormal = f.negationNormal ∧
    (f.transformAt negationNormal path).negationNormal = f.negationNormal ∧
    (f.transformAt disguiseRoot path).negationNormal = f.negationNormal :=
  ⟨negationNormal_transformAt negationNormal_expandRoot path f,
    negationNormal_transformAt negationNormal_expand path f,
    negationNormal_transformAt negationNormal_pushNegationRoot path f,
    negationNormal_transformAt negationNormal_pushNegation path f,
    negationNormal_transformAt negationNormal_negationNormal path f,
    negationNormal_transformAt negationNormal_disguiseRoot path f⟩

end Propositional.Formula
