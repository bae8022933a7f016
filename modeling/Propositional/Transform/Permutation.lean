import Propositional.Transform.Growth

/-!
# Propositional — permuting operands

Four ways to rearrange the operands near the root: exchange the two sides, or,
where a side continues the chain of an associative connective, exchange operands
between the sides. `Formula.admits` says when each of them keeps the meaning;
on other formulas they are not used.

Sides also lead to every place within a formula, one below the other from the root
on. `Formula.transformAt` transforms what stands at a place and leaves the rest alone.
-/

namespace Propositional

/-- One of the two sides of a connective. -/
inductive Side where
  | left
  | right
  deriving DecidableEq

/-- A way to rearrange the operands near the root. -/
inductive Permutation where
  /-- The two sides change places. -/
  | swap
  /-- An operand of the left side and the right side change places. -/
  | throughLeft
  /-- An operand of the right side and the left side change places. -/
  | throughRight
  /-- An operand of the left side and one of the right side change places. -/
  | across
  deriving DecidableEq

/-- The permutations by number. -/
def Permutation.ofFin : Fin 4 → Permutation
  | 0 => swap
  | 1 => throughLeft
  | 2 => throughRight
  | 3 => across

namespace Formula

/-- Transforms what stands at a place; a place that does not exist is not transformed. -/
def transformAt (transform : Formula → Formula) : List Side → Formula → Formula
  | [], f => transform f
  | .left :: path, .binary op a b negated => .binary op (a.transformAt transform path) b negated
  | .right :: path, .binary op a b negated => .binary op a (b.transformAt transform path) negated
  | _, .literal name negated => .literal name negated

/-! ## The permutations -/

/-- Whether a permutation applies: the connective must be commutative and, except for a swap,
associative with its chain continued on the sides concerned. -/
def admits (p : Permutation) : Formula → Bool
  | literal .. => false
  | binary op a b _ =>
    op.isCommutative && match p with
      | .swap => true
      | .throughLeft => op.isAssociative && a.continues op
      | .throughRight => op.isAssociative && b.continues op
      | .across => op.isAssociative && a.continues op && b.continues op

/-- Exchanges the two sides. -/
def swap : Formula → Formula
  | binary op a b negated => binary op b a negated
  | f => f

/-- The operand on a side of the root. -/
def operand (side : Side) : Formula → Formula
  | binary _ a b _ =>
    match side with
    | .left => a
    | .right => b
  | f => f

/-- The formula with another operand on a side of the root. -/
def withOperand (side : Side) (f operand : Formula) : Formula :=
  match f with
  | binary op a b negated =>
    match side with
    | .left => binary op operand b negated
    | .right => binary op a operand negated
  | f => f

/-- Exchanges an operand of the left side with the right side. -/
def permuteThroughLeft (side : Side) : Formula → Formula
  | binary op a b negated => binary op (a.withOperand side b) (a.operand side) negated
  | f => f

/-- Exchanges an operand of the right side with the left side. -/
def permuteThroughRight (side : Side) : Formula → Formula
  | binary op a b negated => binary op (b.operand side) (b.withOperand side a) negated
  | f => f

/-- Exchanges an operand of the left side with one of the right side. -/
def permuteAcross (ofLeft ofRight : Side) : Formula → Formula
  | binary op a b negated =>
    binary op (a.withOperand ofLeft (b.operand ofRight)) (b.withOperand ofRight (a.operand ofLeft))
      negated
  | f => f

/-! ## Permutations that apply keep the sides small -/

theorem admits_literal (p : Permutation) (name : String) (negated : Bool) :
    (literal name negated).admits p = false := rfl

/-- A left side that continues the chain is a join, so the permutation can be read off. -/
theorem exists_of_admits_throughLeft {f : Formula} (h : f.admits .throughLeft = true) :
    ∃ op x y b negated, op.isAssociative = true ∧ op.isCommutative = true ∧
      f = binary op (join op x y) b negated := by
  cases f with
  | literal => cases h
  | binary op a b negated =>
    simp only [admits, Bool.and_eq_true] at h
    obtain ⟨x, y, rfl⟩ := continues_eq_true.1 h.2.2
    exact ⟨op, x, y, b, negated, h.2.1, h.1, rfl⟩

/-- The same for the right side. -/
theorem exists_of_admits_throughRight {f : Formula} (h : f.admits .throughRight = true) :
    ∃ op a x y negated, op.isAssociative = true ∧ op.isCommutative = true ∧
      f = binary op a (join op x y) negated := by
  cases f with
  | literal => cases h
  | binary op a b negated =>
    simp only [admits, Bool.and_eq_true] at h
    obtain ⟨x, y, rfl⟩ := continues_eq_true.1 h.2.2
    exact ⟨op, a, x, y, negated, h.2.1, h.1, rfl⟩

/-- The same for both sides. -/
theorem exists_of_admits_across {f : Formula} (h : f.admits .across = true) :
    ∃ op x y z w negated, op.isAssociative = true ∧ op.isCommutative = true ∧
      f = binary op (join op x y) (join op z w) negated := by
  cases f with
  | literal => cases h
  | binary op a b negated =>
    simp only [admits, Bool.and_eq_true] at h
    obtain ⟨x, y, rfl⟩ := continues_eq_true.1 h.2.1.2
    obtain ⟨z, w, rfl⟩ := continues_eq_true.1 h.2.2
    exact ⟨op, x, y, z, w, negated, h.2.1.1, h.1, rfl⟩

/-- Exchanged sides are as small as before. -/
theorem sidesBelow_swap {n : Nat} {f : Formula} (h : f.SidesBelow n) : f.swap.SidesBelow n := by
  cases f with
  | literal => exact h
  | binary => exact ⟨h.2, h.1⟩

/-- The side that gets more still lacks the operand that was exchanged for it. -/
theorem sidesBelow_permuteThroughLeft {f : Formula} (side : Side)
    (h : f.admits .throughLeft = true) :
    (f.permuteThroughLeft side).SidesBelow f.expandedLeafCount := by
  obtain ⟨op, x, y, b, negated, -, -, rfl⟩ := exists_of_admits_throughLeft h
  -- every operand has a leaf, whichever of them is exchanged
  have := x.expandedLeafCount_pos
  have := y.expandedLeafCount_pos
  have := b.expandedLeafCount_pos
  cases op <;> cases side <;>
    simp only [permuteThroughLeft, withOperand, operand, join, SidesBelow, expandedLeafCount,
      Connective.copies] <;> omega

/-- The same to the other side. -/
theorem sidesBelow_permuteThroughRight {f : Formula} (side : Side)
    (h : f.admits .throughRight = true) :
    (f.permuteThroughRight side).SidesBelow f.expandedLeafCount := by
  obtain ⟨op, a, x, y, negated, -, -, rfl⟩ := exists_of_admits_throughRight h
  have := x.expandedLeafCount_pos
  have := y.expandedLeafCount_pos
  have := a.expandedLeafCount_pos
  cases op <;> cases side <;>
    simp only [permuteThroughRight, withOperand, operand, join, SidesBelow, expandedLeafCount,
      Connective.copies] <;> omega

/-- Each side lacks an operand of the other one. -/
theorem sidesBelow_permuteAcross {f : Formula} (ofLeft ofRight : Side)
    (h : f.admits .across = true) :
    (f.permuteAcross ofLeft ofRight).SidesBelow f.expandedLeafCount := by
  obtain ⟨op, x, y, z, w, negated, -, -, rfl⟩ := exists_of_admits_across h
  -- four operands, and each side comes to have two of them
  have := x.expandedLeafCount_pos
  have := y.expandedLeafCount_pos
  have := z.expandedLeafCount_pos
  have := w.expandedLeafCount_pos
  cases op <;> cases ofLeft <;> cases ofRight <;>
    simp only [permuteAcross, withOperand, operand, join, SidesBelow, expandedLeafCount,
      Connective.copies] <;> omega

end Formula

end Propositional
