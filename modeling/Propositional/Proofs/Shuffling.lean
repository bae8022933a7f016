import Propositional.Proofs.Permutation
import Propositional.Proofs.Restatement

/-!
# Propositional — what shuffling keeps

A shuffler works at a root and then on the two sides that this leaves. Each of
its three moves restates the formula, so its work at a root does, and so does a
whole run (`Formula.restates_shuffle`). Nothing is assumed about the outcomes that
are drawn: they come from any `Draws`.

`Formula.shuffle_induction` is the induction over a run that all such results use:
a property of literals that passes from the shuffled sides to the shuffled whole
holds of every run.

Main result: `Formula.shuffle_keeps_meaning`. A run never misses a De Morgan dual,
and its result has the names, the values and the truth table of the formula.
-/

namespace Propositional.Formula

variable {σ : Type} [Draws σ]

/-! ## The root stays a connective -/

@[simp]
theorem isLiteral_expandRoot (f : Formula) : f.expandRoot.isLiteral = f.isLiteral := by
  cases f with
  | literal => rfl
  | binary op => cases op <;> rfl

@[simp]
theorem isLiteral_disguiseRoot (f : Formula) : f.disguiseRoot.isLiteral = f.isLiteral := by
  unfold disguiseRoot
  split
  next => rfl
  next => rfl
  next => exact isLiteral_expandRoot _

@[simp]
theorem isLiteral_deMorgan (f : Formula) : f.deMorgan.isLiteral = f.isLiteral := by
  unfold deMorgan
  split
  next op a b => cases op <;> rfl
  next => rfl

@[simp]
theorem isLiteral_pushNegationRoot (f : Formula) :
    f.pushNegationRoot.isLiteral = f.isLiteral := by
  unfold pushNegationRoot
  split <;> simp

@[simp]
theorem isLiteral_permute (p : Permutation) (f : Formula) (s : σ) :
    (f.permute p s).1.isLiteral = f.isLiteral := by
  unfold permute
  split
  next => cases p <;> cases f <;> rfl
  next => rfl

/-! ## One root -/

/-- The formula that a shuffler permutes at a root: disguised or not, and then pushed or not. -/
def rewriteRoot (disguise push : Bool) (f : Formula) : Formula :=
  let f := if disguise then f.disguiseRoot else f
  if push then f.pushNegationRoot else f

/-- What holds of a formula and is kept by a disguise and by pushing a mark holds of what is
permuted. -/
theorem rewriteRoot_induction {motive : Formula → Prop} {f : Formula} (start : motive f)
    (disguised : ∀ g, motive g → motive g.disguiseRoot)
    (pushed : ∀ g, motive g → motive g.pushNegationRoot) (disguise push : Bool) :
    motive (f.rewriteRoot disguise push) := by
  -- the disguise comes first, and the mark is moved in what it leaves
  have hDisguise : motive (if disguise then f.disguiseRoot else f) := by
    cases disguise with
    | true => exact disguised f start
    | false => exact start
  cases push with
  | true => exact pushed _ hDisguise
  | false => exact hDisguise

/-- All that the work at a root can come to. -/
theorem exists_shuffleRoot_eq (shuffler : Shuffler) (f : Formula) (s : σ) :
    ∃ (disguise push : Bool) (p : Permutation) (s' : σ),
      f.shuffleRoot shuffler s = (f.rewriteRoot disguise push).permute p s' :=
  ⟨_, _, _, _, rfl⟩

theorem isLiteral_shuffleRoot (shuffler : Shuffler) (f : Formula) (s : σ) :
    (f.shuffleRoot shuffler s).1.isLiteral = f.isLiteral := by
  obtain ⟨disguise, push, p, s', h⟩ := exists_shuffleRoot_eq shuffler f s
  rw [h, isLiteral_permute]
  apply rewriteRoot_induction (motive := fun g => g.isLiteral = f.isLiteral) rfl
  · intro g hSame
    rw [isLiteral_disguiseRoot, hSame]
  · intro g hSame
    rw [isLiteral_pushNegationRoot, hSame]

/-- A disguise is an equivalence: implication stands for the connective it replaced. -/
theorem restates_disguiseRoot (f : Formula) : f.disguiseRoot.Restates f := by
  unfold disguiseRoot
  split
  next a b negated =>
    constructor
    -- the four cases of the two sides
    · intro v
      simp only [eval, eval_negate, Connective.apply]
      cases a.eval v <;> cases b.eval v <;> cases negated <;> rfl
    · simp
  next a b negated =>
    constructor
    · intro v
      simp only [eval, eval_negate, Connective.apply]
      cases a.eval v <;> cases b.eval v <;> cases negated <;> rfl
    · simp
  next => exact restates_expandRoot _

/-- Rewriting the root says the same in other words. -/
theorem restates_rewriteRoot (disguise push : Bool) (f : Formula) :
    (f.rewriteRoot disguise push).Restates f := by
  apply rewriteRoot_induction (motive := fun g => g.Restates f) (.refl f)
  · intro g hRestates
    exact g.restates_disguiseRoot.trans hRestates
  · intro g hRestates
    exact (restates_pushNegationRoot g).trans hRestates

/-- Shuffling the root says the same in other words. -/
theorem restates_shuffleRoot (shuffler : Shuffler) (f : Formula) (s : σ) :
    (f.shuffleRoot shuffler s).1.Restates f := by
  obtain ⟨disguise, push, p, s', h⟩ := exists_shuffleRoot_eq shuffler f s
  rw [h]
  exact (Restates.of_reorders (reorders_permute p _ s')).trans
    (f.restates_rewriteRoot disguise push)

/-! ## A whole run -/

theorem shuffle_literal (shuffler : Shuffler) (name : String) (negated : Bool) (s : σ) :
    (literal name negated).shuffle shuffler s = (literal name negated, s) := by
  rw [shuffle]

/-- A connective that the work at a root leaves was found there. -/
theorem exists_eq_binary_of_shuffleRoot_eq {shuffler : Shuffler} {f : Formula} {s s' : σ}
    {op : Connective} {left right : Formula} {negated : Bool}
    (hRoot : f.shuffleRoot shuffler s = (binary op left right negated, s')) :
    ∃ op' a b negated', f = binary op' a b negated' := by
  have hBinary : f.isLiteral = false := by
    rw [← isLiteral_shuffleRoot shuffler f s, hRoot]
    rfl
  cases f with
  | literal => cases hBinary
  | binary op' a b negated' => exact ⟨op', a, b, negated', rfl⟩

/-- A run goes on with the sides that the work at the root left. -/
theorem shuffle_binary {shuffler : Shuffler} {f : Formula} {s s' : σ} {op : Connective}
    {left right : Formula} {negated : Bool}
    (hRoot : f.shuffleRoot shuffler s = (binary op left right negated, s')) :
    f.shuffle shuffler s =
      let (left, s') := left.shuffle shuffler s'
      let (right, s') := right.shuffle shuffler s'
      (binary op left right negated, s') := by
  obtain ⟨op', a, b, negated', rfl⟩ := exists_eq_binary_of_shuffleRoot_eq hRoot
  rw [shuffle]
  split
  next h => rw [hRoot] at h; cases h
  next h => rw [hRoot] at h; cases h; rfl

/-- **Induction over a run.** What holds of literals, and of a formula if it holds of both sides
that the work at its root leaves, holds of every formula and what it is shuffled to. -/
theorem shuffle_induction {shuffler : Shuffler} {motive : Formula → σ → Formula × σ → Prop}
    (literal : ∀ name negated s, motive (literal name negated) s (.literal name negated, s))
    (binary : ∀ f s op left right negated s₁ left' s₂ right' s₃,
      f.shuffleRoot shuffler s = (binary op left right negated, s₁) →
      motive left s₁ (left', s₂) → motive right s₂ (right', s₃) →
      motive f s (.binary op left' right' negated, s₃))
    (f : Formula) (s : σ) : motive f s (f.shuffle shuffler s) := by
  -- the sides need not be the formula's own, but they are smaller once expanded
  induction hSize : f.expandedLeafCount using Nat.strong_induction_on generalizing f s with
  | _ size ih =>
    subst hSize
    have hSides := sidesBelow_shuffleRoot shuffler f s
    have hLiteral := isLiteral_shuffleRoot shuffler f s
    match hRoot : f.shuffleRoot shuffler s with
    | (.literal name negated, s₁) =>
      rw [hRoot] at hLiteral
      cases f with
      | literal name negated =>
        rw [shuffle_literal]
        exact literal name negated s
      | binary => cases hLiteral
    | (.binary op left right negated, s₁) =>
      rw [hRoot] at hSides
      obtain ⟨hLeft, hRight⟩ := hSides
      rw [shuffle_binary hRoot]
      exact binary f s op left right negated s₁ _ _ _ _ hRoot
        (ih _ hLeft left s₁ rfl) (ih _ hRight right _ rfl)

/-- A run restates the formula. -/
theorem restates_shuffle (shuffler : Shuffler) (f : Formula) (s : σ) :
    (f.shuffle shuffler s).1.Restates f := by
  apply shuffle_induction (motive := fun f _ result => result.1.Restates f)
  case literal =>
    intro name negated s
    exact .refl _
  case binary =>
    intro f s op left right negated s₁ left' s₂ right' s₃ hRoot hLeft hRight
    -- the sides that are shuffled are those of the new root
    have hRestates := restates_shuffleRoot shuffler f s
    rw [hRoot] at hRestates
    exact (Restates.sides hLeft hRight).trans hRestates

/-! ## A run that may miss a dual -/

/-- There are permutations to draw from. -/
theorem zero_lt_four : 0 < 4 := by decide

/-- The work at a root, where a missing dual is an error. -/
def shuffleRoot? (shuffler : Shuffler) (f : Formula) (s : σ) : Except NoDual (Formula × σ) := do
  let (disguise, s) := Draws.flip s shuffler.disguise
  let f := if disguise then f.disguiseRoot else f
  let (push, s) := Draws.flip s shuffler.push
  let f ← if push then f.pushNegationRoot? else .ok f
  let (choice, s) := Draws.below s 4 zero_lt_four
  return f.permute (.ofFin choice) s

/-- No dual is missed when the root is shuffled. -/
theorem shuffleRoot?_eq (shuffler : Shuffler) (f : Formula) (s : σ) :
    f.shuffleRoot? shuffler s = .ok (f.shuffleRoot shuffler s) := by
  unfold shuffleRoot? shuffleRoot
  simp only [pushNegationRoot?_eq]
  split <;> rfl

/-- A run that ends with the first dual that is missing. -/
def shuffle? (shuffler : Shuffler) (f : Formula) (s : σ) : Except NoDual (Formula × σ) :=
  match f with
  | literal name negated => .ok (literal name negated, s)
  | binary op a b negated =>
    match h : (binary op a b negated).shuffleRoot? shuffler s with
    | .error e => .error e
    | .ok (literal name negated, s') => .ok (literal name negated, s')
    | .ok (binary op' left right negated', s') =>
      have hSides : left.expandedLeafCount < (binary op a b negated).expandedLeafCount ∧
          right.expandedLeafCount < (binary op a b negated).expandedLeafCount := by
        have hBelow := sidesBelow_shuffleRoot shuffler (binary op a b negated) s
        rw [shuffleRoot?_eq, Except.ok.injEq] at h
        rwa [h] at hBelow
      do
        let (left, s') ← left.shuffle? shuffler s'
        let (right, s') ← right.shuffle? shuffler s'
        return (binary op' left right negated', s')
termination_by f.expandedLeafCount

/-- No run misses a dual. -/
theorem shuffle?_eq (shuffler : Shuffler) (f : Formula) (s : σ) :
    f.shuffle? shuffler s = .ok (f.shuffle shuffler s) := by
  apply shuffle_induction (motive := fun f s result => f.shuffle? shuffler s = .ok result)
  case literal =>
    intro name negated s
    rw [shuffle?]
  case binary =>
    intro f s op left right negated s₁ left' s₂ right' s₃ hRoot hLeft hRight
    obtain ⟨op', a, b, negated', rfl⟩ := exists_eq_binary_of_shuffleRoot_eq hRoot
    -- both runs go through the same roots, so the sides are shuffled from the same sources
    rw [shuffle?]
    split
    next h => rw [shuffleRoot?_eq, hRoot] at h; cases h
    next h => rw [shuffleRoot?_eq, hRoot] at h; cases h
    next h =>
      rw [shuffleRoot?_eq, hRoot] at h
      cases h
      rw [hLeft]
      show (do
        let (right, s') ← right.shuffle? shuffler s₂
        return (binary op left' right negated, s')) = _
      rw [hRight]
      rfl

/-- **Shuffling keeps the meaning**, whatever is drawn and however likely the shuffler makes its
moves: it never misses a De Morgan dual, and what it answers has the same variables, the same
value under every valuation and the same truth table, or lack of one. -/
theorem shuffle_keeps_meaning (shuffler : Shuffler) (f : Formula) (s : σ) :
    f.shuffle? shuffler s = .ok (f.shuffle shuffler s) ∧
      (f.shuffle shuffler s).1.vocabulary = f.vocabulary ∧
      (∀ v : Valuation, (f.shuffle shuffler s).1.eval v = f.eval v) ∧
      (f.shuffle shuffler s).1.truthTable = f.truthTable := by
  have hRestates := restates_shuffle shuffler f s
  exact ⟨shuffle?_eq shuffler f s, hRestates.vocabulary_eq, hRestates.eval_eq,
    hRestates.truthTable_eq⟩

end Propositional.Formula
