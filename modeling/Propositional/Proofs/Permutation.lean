import Propositional.Shuffle
import Propositional.Transform.Reordering

/-!
# Propositional — permutations are reorderings

The four permutations name the operands that change places; a reordering says it
in steps, each of which exchanges two neighbours or regroups three. Here every
permutation that a formula admits is written as such steps
(`Formula.reorders_permute`), so that what holds of a step holds of a permutation.

The steps that exchange operands across a chain are `Reorders.through` and
`Reorders.middle`; the cases differ only in which neighbours are exchanged before
and after.
-/

namespace Propositional

namespace Reorders

variable {op : Connective} {a a' b b' x y z w : Formula} {negated : Bool}

theorem onLeft (h : Reorders a a') :
    Reorders (.binary op a b negated) (.binary op a' b negated) :=
  .sides h (.refl b)

theorem onRight (h : Reorders b b') :
    Reorders (.binary op a b negated) (.binary op a b' negated) :=
  .sides (.refl a) h

/-- The first operand of a chain of three changes places with the second. -/
theorem through (hComm : op.isCommutative = true) (hAssoc : op.isAssociative = true) :
    Reorders (.binary op a (.join op x y) negated) (.binary op x (.join op a y) negated) := by
  have hGroup : Reorders (.binary op a (.join op x y) negated)
      (.binary op (.join op a x) y negated) := .toLeft hAssoc
  have hSwap : Reorders (.binary op (.join op a x) y negated)
      (.binary op (.join op x a) y negated) := .onLeft (.swap hComm)
  exact (hGroup.trans hSwap).trans (.toRight hAssoc)

/-- The two operands in the middle of a chain of four change places. -/
theorem middle (hComm : op.isCommutative = true) (hAssoc : op.isAssociative = true) :
    Reorders (.binary op (.join op x y) (.join op z w) negated)
      (.binary op (.join op x z) (.join op y w) negated) := by
  have hGroup : Reorders (.binary op (.join op x y) (.join op z w) negated)
      (.binary op x (.join op y (.join op z w)) negated) := .toRight hAssoc
  have hThrough : Reorders (.binary op x (.join op y (.join op z w)) negated)
      (.binary op x (.join op z (.join op y w)) negated) := .onRight (.through hComm hAssoc)
  exact (hGroup.trans hThrough).trans (.toLeft hAssoc)

end Reorders

namespace Formula

/-- Where it is admitted, the exchange of the two sides is a reordering. -/
theorem reorders_swap {f : Formula} (h : f.admits .swap = true) : Reorders f f.swap := by
  cases f with
  | literal => exact .refl _
  | binary op a b negated =>
    simp only [admits, Bool.and_eq_true] at h
    exact .swap h.1

/-- So is the exchange of the right side with an operand of the left. -/
theorem reorders_permuteThroughLeft {f : Formula} (side : Side)
    (h : f.admits .throughLeft = true) : Reorders f (f.permuteThroughLeft side) := by
  obtain ⟨op, x, y, b, negated, hAssoc, hComm, rfl⟩ := exists_of_admits_throughLeft h
  have hInner : Reorders (binary op (join op x y) b negated)
      (binary op x (join op b y) negated) :=
    .trans (.toRight hAssoc) (.onRight (.swap hComm))
  cases side with
  | left => exact hInner.trans (.swap hComm) -- the pair goes back to the left side
  | right => exact hInner.trans (.toLeft hAssoc)

/-- So is the exchange of the left side with an operand of the right. -/
theorem reorders_permuteThroughRight {f : Formula} (side : Side)
    (h : f.admits .throughRight = true) : Reorders f (f.permuteThroughRight side) := by
  obtain ⟨op, a, x, y, negated, hAssoc, hComm, rfl⟩ := exists_of_admits_throughRight h
  cases side with
  | left => exact .through hComm hAssoc
  | right =>
    -- the second operand of the pair is made its first for as long as it takes
    have hSwap : Reorders (binary op a (join op x y) negated)
        (binary op a (join op y x) negated) := .onRight (.swap hComm)
    exact (hSwap.trans (.through hComm hAssoc)).trans (.onRight (.swap hComm))

/-- So is the exchange of two operands, one from either side. -/
theorem reorders_permuteAcross {f : Formula} (ofLeft ofRight : Side)
    (h : f.admits .across = true) : Reorders f (f.permuteAcross ofLeft ofRight) := by
  obtain ⟨op, x, y, z, w, negated, hAssoc, hComm, rfl⟩ := exists_of_admits_across h
  -- the operands to exchange are brought to the middle and, if they came from outside, the
  -- two that took their places there are exchanged back
  have hLeft {x y b : Formula} : Reorders (binary op (join op x y) b negated)
      (binary op (join op y x) b negated) := .onLeft (.swap hComm)
  have hRight {a z w : Formula} : Reorders (binary op a (join op z w) negated)
      (binary op a (join op w z) negated) := .onRight (.swap hComm)
  cases ofLeft with
  | left =>
    cases ofRight with
    | left => exact (hLeft.trans (.middle hComm hAssoc)).trans hLeft
    | right => exact ((hLeft.trans hRight).trans (.middle hComm hAssoc)).trans (hLeft.trans hRight)
  | right =>
    cases ofRight with
    | left => exact .middle hComm hAssoc
    | right => exact (hRight.trans (.middle hComm hAssoc)).trans hRight

/-- Whatever operands are drawn, permuting reorders; without admission nothing happens. -/
theorem reorders_permute {σ : Type} [Draws σ] (p : Permutation) (f : Formula) (s : σ) :
    Reorders f (f.permute p s).1 := by
  unfold permute
  split
  next h =>
    cases p with
    | swap => exact reorders_swap h
    | throughLeft => exact reorders_permuteThroughLeft _ h
    | throughRight => exact reorders_permuteThroughRight _ h
    | across => exact reorders_permuteAcross _ _ h
  next => exact .refl f

end Formula

end Propositional
