import Propositional.Proofs.NegationNormal

/-!
# Propositional — how far rewriting goes

Expanding and moving negations rewrite a root and then the two sides that this leaves.
These sides were built by the step before and can be larger than those of the formula,
so two questions are open that structural recursion would answer by itself: whether the
calls end, and how large the result is.

Both have exact answers. `Formula.rewriteWithin?` makes the calls in this order, and no
more of them inside one another than it is allowed. It needs one more than the depth of
the result (`Formula.rewriteWithin?_eq`). And the size of the result is known beforehand:

* expanding gives `expandedLeafCount` leaves at depth `expandedDepth`, no more, no less;
* moving negations stays below both, because it expands no more than the roots that
  carry a mark (`leafCount_pushUnder_le`, `depth_pushUnder_le`);
* on an expanded formula it keeps both (`IsExpanded.leafCount_pushUnder`,
  `IsExpanded.depth_pushUnder`), so the negation normal form is as large as the expanded
  formula.

Main result: `Formula.rewriting_grows_as_foreseen`.
-/

namespace Propositional.Formula

/-! ## Calls inside one another -/

/-- Rewrites the root and then both sides that this leaves, with at most so many calls inside one
another. There is no answer if the calls do not suffice, or if rewriting a root gives none. -/
def rewriteWithin? (root : Formula → Option Formula) : (calls : Nat) → Formula → Option Formula
  | 0, _ => none
  | calls + 1, f =>
    match root f with
    | none => none
    | some (literal name negated) => some (literal name negated)
    | some (binary op a b negated) => do
      let a ← rewriteWithin? root calls a
      let b ← rewriteWithin? root calls b
      return binary op a b negated

/-- Expands, with at most so many calls inside one another. -/
def expandWithin? (calls : Nat) (f : Formula) : Option Formula :=
  f.rewriteWithin? (fun f => some f.expandRoot) calls

/-- Moves negations, with at most so many calls inside one another and unless a dual is missing. -/
def pushNegationWithin? (calls : Nat) (f : Formula) : Option Formula :=
  f.rewriteWithin? (fun f => f.pushNegationRoot?.toOption) calls

/-- Expands and then moves negations, each with at most so many calls inside one another. -/
def negationNormalWithin? (calls : Nat) (f : Formula) : Option Formula := do
  let f ← f.expandWithin? calls
  f.pushNegationWithin? calls

/-- A rewriting from the root down ends. Its calls go as deep as its result, and one call is made
at every literal. -/
theorem rewriteWithin?_eq {root : Formula → Option Formula} {step rewrite : Formula → Formula}
    (hRoot : ∀ f, root f = some (step f)) (hRewrite : ∀ f, rewrite f = (step f).descend rewrite)
    (calls : Nat) (f : Formula) :
    f.rewriteWithin? root calls = if (rewrite f).depth < calls then some (rewrite f) else none := by
  induction calls generalizing f with
  | zero => rfl
  | succ calls ih =>
    rw [rewriteWithin?, hRoot, hRewrite f]
    cases step f with
    | literal name negated => rfl
    | binary op a b negated =>
      simp only [descend, depth_binary_lt_succ_iff, ih]
      -- either side may run out of calls, and one is enough
      by_cases hLeft : (rewrite a).depth < calls
      · by_cases hRight : (rewrite b).depth < calls <;> simp [hLeft, hRight]
      · simp [hLeft]

/-! ## Expanding -/

/-- Expanding has as many leaves as foreseen. -/
theorem leafCount_expand (f : Formula) : f.expand.leafCount = f.expandedLeafCount := by
  induction f with
  | literal => rfl
  | binary op a b negated iha ihb =>
    -- a side counts as often as its connective copies it
    cases op <;> simp only [expand, expandRoot, join, leafCount, leafCount_negate,
      expandedLeafCount, Connective.copies, iha, ihb] <;> omega

/-- Expanding goes as deep as foreseen. -/
theorem depth_expand (f : Formula) : f.expand.depth = f.expandedDepth := by
  induction f with
  | literal => rfl
  | binary op a b negated iha ihb =>
    cases op <;> simp only [expand, expandRoot, join, depth, depth_negate, expandedDepth,
      Connective.copies, iha, ihb] <;> omega

/-- An expanded root takes two levels at most. -/
theorem expandedDepth_le (f : Formula) : f.expandedDepth ≤ 2 * f.depth := by
  induction f with
  | literal => exact Nat.le_refl _
  | binary op a b negated iha ihb =>
    have hCopies : op.copies ≤ 2 := by cases op <;> decide
    simp only [expandedDepth, depth]
    omega

/-- Expanding succeeds with more calls than the depth it foresees, and only then. -/
theorem expandWithin?_eq (calls : Nat) (f : Formula) :
    f.expandWithin? calls = if f.expandedDepth < calls then some f.expand else none := by
  rw [← depth_expand]
  exact rewriteWithin?_eq (fun _ => rfl) expand_eq_descend calls f

/-! ## Moving negations -/

/-- Moving marks writes no more leaves than expanding does. -/
theorem leafCount_pushUnder_le (pending : Bool) (f : Formula) :
    (f.pushUnder pending).leafCount ≤ f.expandedLeafCount := by
  induction f generalizing pending with
  | literal => exact Nat.le_refl _
  | binary op a b negated iha ihb =>
    have hLeft := iha true
    have hLeft' := iha false
    have hRight := ihb true
    have hRight' := ihb false
    unfold pushUnder
    split
    -- with a mark every side is written as often as expanding writes it, else once
    · cases op <;> simp only [join, leafCount, expandedLeafCount, Connective.copies] <;> omega
    · cases op <;> simp only [join, leafCount, expandedLeafCount, Connective.copies] <;> omega

/-- Moving marks goes no deeper than expanding does. -/
theorem depth_pushUnder_le (pending : Bool) (f : Formula) :
    (f.pushUnder pending).depth ≤ f.expandedDepth := by
  induction f generalizing pending with
  | literal => exact Nat.le_refl _
  | binary op a b negated iha ihb =>
    have hLeft := iha true
    have hLeft' := iha false
    have hRight := ihb true
    have hRight' := ihb false
    -- with a mark the root is expanded first, without one it stays
    unfold pushUnder
    split
    · cases op <;> simp only [join, depth, expandedDepth, Connective.copies] <;> omega
    · cases op <;> simp only [join, depth, expandedDepth, Connective.copies] <;> omega

/-- In what is expanded, moving marks keeps the number of leaves. -/
theorem IsExpanded.leafCount_pushUnder {f : Formula} (h : f.IsExpanded) (pending : Bool) :
    (f.pushUnder pending).leafCount = f.leafCount := by
  induction f generalizing pending with
  | literal => rfl
  | binary op a b negated iha ihb =>
    obtain ⟨hOp, hLeft, hRight⟩ := h
    -- AND and OR copy no side, with a mark or without
    unfold Formula.pushUnder
    split
    · rcases hOp with rfl | rfl <;> simp only [join, leafCount, iha hLeft, ihb hRight]
    · simp only [join, leafCount, iha hLeft, ihb hRight]

/-- In what is expanded, moving marks keeps the depth. -/
theorem IsExpanded.depth_pushUnder {f : Formula} (h : f.IsExpanded) (pending : Bool) :
    (f.pushUnder pending).depth = f.depth := by
  induction f generalizing pending with
  | literal => rfl
  | binary op a b negated iha ihb =>
    obtain ⟨hOp, hLeft, hRight⟩ := h
    unfold Formula.pushUnder
    split
    · rcases hOp with rfl | rfl <;> simp only [join, depth, iha hLeft, ihb hRight]
    · simp only [join, depth, iha hLeft, ihb hRight]

/-- Moving marks succeeds with more calls than the depth it comes to, and only then. -/
theorem pushNegationWithin?_eq (calls : Nat) (f : Formula) :
    f.pushNegationWithin? calls =
      if f.pushNegation.depth < calls then some f.pushNegation else none := by
  apply rewriteWithin?_eq _ pushNegation_eq_descend
  intro f
  rw [pushNegationRoot?_eq]
  rfl

/-! ## The negation normal form -/

theorem leafCount_negationNormal (f : Formula) :
    f.negationNormal.leafCount = f.expandedLeafCount :=
  (f.isExpanded_expand.leafCount_pushUnder false).trans f.leafCount_expand

theorem depth_negationNormal (f : Formula) : f.negationNormal.depth = f.expandedDepth :=
  (f.isExpanded_expand.depth_pushUnder false).trans f.depth_expand

/-- Negation normal form is reached with more calls than the depth it comes to, and only then. -/
theorem negationNormalWithin?_eq (calls : Nat) (f : Formula) :
    f.negationNormalWithin? calls =
      if f.expandedDepth < calls then some f.negationNormal else none := by
  rw [negationNormalWithin?, expandWithin?_eq]
  -- moving the marks needs no more calls than expanding did
  by_cases h : f.expandedDepth < calls
  · have hPush := pushNegationWithin?_eq calls f.expand
    rw [show f.expand.pushNegation = f.negationNormal from rfl, depth_negationNormal] at hPush
    rw [if_pos h]
    exact hPush
  · rw [if_neg h, if_neg h]
    rfl

/-- **Rewriting ends, and grows a formula as foreseen.** Expanding, moving negations and the
negation normal form have their results as soon as there are more calls inside one another than
the result is deep. Expanding and the negation normal form have exactly the leaves and the depth
that are counted for the formula, and moving negations has no more. None of them more than doubles
the depth. -/
theorem rewriting_grows_as_foreseen (f : Formula) :
    (∀ calls, f.expandWithin? calls = if f.expandedDepth < calls then some f.expand else none) ∧
    (∀ calls, f.pushNegationWithin? calls =
      if f.pushNegation.depth < calls then some f.pushNegation else none) ∧
    (∀ calls, f.negationNormalWithin? calls =
      if f.expandedDepth < calls then some f.negationNormal else none) ∧
    (f.expand.leafCount = f.expandedLeafCount ∧ f.expand.depth = f.expandedDepth) ∧
    (f.negationNormal.leafCount = f.expandedLeafCount ∧
      f.negationNormal.depth = f.expandedDepth) ∧
    (f.pushNegation.leafCount ≤ f.expandedLeafCount ∧
      f.pushNegation.depth ≤ f.expandedDepth) ∧
    f.expand.depth ≤ 2 * f.depth ∧ f.negationNormal.depth ≤ 2 * f.depth ∧
      f.pushNegation.depth ≤ 2 * f.depth := by
  have hDouble := f.expandedDepth_le
  have hPush : f.pushNegation.depth ≤ f.expandedDepth := f.depth_pushUnder_le false
  exact ⟨fun calls => expandWithin?_eq calls f, fun calls => pushNegationWithin?_eq calls f,
    fun calls => negationNormalWithin?_eq calls f, ⟨f.leafCount_expand, f.depth_expand⟩,
    ⟨f.leafCount_negationNormal, f.depth_negationNormal⟩,
    ⟨f.leafCount_pushUnder_le false, hPush⟩, f.depth_expand.trans_le hDouble,
    f.depth_negationNormal.trans_le hDouble, hPush.trans hDouble⟩

end Propositional.Formula
