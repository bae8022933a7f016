import Propositional.Transform.Negation

/-!
# Propositional — how far a formula can grow

Expanding an exclusive or or an equivalence writes both sides twice. The number
of leaves that a formula has once everything is expanded is therefore known
beforehand, and no transformation of the root changes it. Each side of a root has
strictly less of it, which is what recursion into transformed formulas ends by.
-/

namespace Propositional

/-- How often expanding a connective writes each of its sides. -/
def Connective.copies : Connective → Nat
  | .and | .or | .implies => 1
  | .xor | .iff => 2

namespace Formula

/-- The number of leaves once everything is expanded. -/
def expandedLeafCount : Formula → Nat
  | literal .. => 1
  | binary op a b _ => op.copies * (a.expandedLeafCount + b.expandedLeafCount)

/-- The depth once everything is expanded: an expanded root stands for as many levels as it makes
copies. -/
def expandedDepth : Formula → Nat
  | literal .. => 0
  | binary op a b _ => op.copies + max a.expandedDepth b.expandedDepth

/-- An expanded formula has a leaf. -/
theorem expandedLeafCount_pos (f : Formula) : 0 < f.expandedLeafCount := by
  induction f with
  | literal => exact Nat.one_pos
  | binary op a b _ iha _ =>
    have : 0 < op.copies := by cases op <;> decide
    exact Nat.mul_pos this (Nat.add_pos_left iha _)

@[simp]
theorem expandedLeafCount_negate (f : Formula) :
    f.negate.expandedLeafCount = f.expandedLeafCount := by
  cases f <;> rfl

@[simp]
theorem expandedLeafCount_join (op : Connective) (a b : Formula) :
    (join op a b).expandedLeafCount =
      op.copies * (a.expandedLeafCount + b.expandedLeafCount) := rfl

/-- What the root has as copies of its sides before expanding it has as leaves after. -/
@[simp]
theorem expandedLeafCount_expandRoot (f : Formula) :
    f.expandRoot.expandedLeafCount = f.expandedLeafCount := by
  cases f with
  | literal => rfl
  | binary op a b _ =>
    cases op <;> simp [expandRoot, expandedLeafCount, Connective.copies] <;> omega

/-- Moving a mark adds no leaf, because duals are copied equally often. -/
@[simp]
theorem expandedLeafCount_deMorgan (f : Formula) :
    f.deMorgan.expandedLeafCount = f.expandedLeafCount := by
  unfold deMorgan
  split
  next op a b =>
    cases op <;> simp [Connective.dual, expandedLeafCount, Connective.copies]
  next => rfl

/-- Expanding first for the sake of the mark adds no leaf either. -/
@[simp]
theorem expandedLeafCount_pushNegationRoot (f : Formula) :
    f.pushNegationRoot.expandedLeafCount = f.expandedLeafCount := by
  unfold pushNegationRoot
  split <;> simp

/-- Both sides of the root, if it has sides, have fewer leaves than this once expanded. -/
def SidesBelow (n : Nat) : Formula → Prop
  | literal .. => True
  | binary _ a b _ => a.expandedLeafCount < n ∧ b.expandedLeafCount < n

/-- Both sides are smaller, because each of them has a leaf. -/
theorem sidesBelow_expandedLeafCount (f : Formula) : f.SidesBelow f.expandedLeafCount := by
  cases f with
  | literal => trivial
  | binary op a b _ =>
    have := a.expandedLeafCount_pos
    have := b.expandedLeafCount_pos
    cases op <;> simp only [SidesBelow, expandedLeafCount, Connective.copies] <;> omega

end Formula

end Propositional
