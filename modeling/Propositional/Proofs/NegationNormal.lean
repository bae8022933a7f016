import Propositional.Proofs.Restatement
import Propositional.Transform.Growth

/-!
# Propositional — expanding and moving negations to the leaves

Expanding and moving negations are rewritings that go from a root into the nodes that
this very step has built, with sides written twice and marks flipped. Neither of them
loses a name or changes a value, and each reaches the form that it is for:

* expanding leaves conjunction and disjunction only (`isExpanded_expand`);
* moving negations leaves marks on literals only (`marksLiterals_pushUnder`), also under
  connectives without a dual that it does not touch;
* the second keeps what the first has reached (`IsExpanded.pushUnder`), so the negation
  normal form has both.

The first result about whole formulas is that they restate the formula. The second is that
no De Morgan dual is asked for in vain: `pushNegation?` goes on from root to sides and ends
with the first dual that is missing, and it always answers (`pushNegation?_eq`).

Main result: `Formula.rewriting_keeps_meaning`.
-/

namespace Propositional.Formula

/-! ## Names and values -/

/-- Expanding says the same in other words. -/
theorem restates_expand (f : Formula) : f.expand.Restates f := by
  induction f with
  | literal => exact .refl _
  | binary op a b negated iha ihb =>
    rw [expand]
    exact (restates_expandRoot _).trans (.sides iha ihb)

/-- Each side is written once or twice, with either mark. -/
theorem mem_names_pushUnder (pending : Bool) (f : Formula) (name : String) :
    name ∈ (f.pushUnder pending).names ↔ name ∈ f.names := by
  induction f generalizing pending with
  | literal => rfl
  | binary op a b negated iha ihb =>
    unfold pushUnder
    split
    · -- a mark arrives here: the dual, with a connective that has none expanded
      cases op <;> simp [join, iha, ihb] <;> grind
    · simp [join, iha, ihb]

theorem restates_pushNegation (f : Formula) : f.pushNegation.Restates f :=
  ⟨f.eval_pushNegation, f.mem_names_pushUnder false⟩

theorem restates_negationNormal (f : Formula) : f.negationNormal.Restates f :=
  f.expand.restates_pushNegation.trans f.restates_expand

/-! ## Forms -/

/-- Moving negations brings no connective back that was expanded. -/
theorem IsExpanded.pushUnder {f : Formula} (h : f.IsExpanded) (pending : Bool) :
    (f.pushUnder pending).IsExpanded := by
  induction f generalizing pending with
  | literal => trivial
  | binary op a b negated iha ihb =>
    obtain ⟨hOp, hLeft, hRight⟩ := h
    have hLeft' : ∀ pending, (a.pushUnder pending).IsExpanded := iha hLeft
    have hRight' : ∀ pending, (b.pushUnder pending).IsExpanded := ihb hRight
    unfold Formula.pushUnder
    split
    -- a mark that is pending turns AND and OR into each other, which is still expanded
    · rcases hOp with rfl | rfl
      · exact ⟨.inr rfl, hLeft' true, hRight' true⟩
      · exact ⟨.inl rfl, hLeft' true, hRight' true⟩
    · exact ⟨hOp, hLeft' false, hRight' false⟩

theorem isExpanded_negationNormal (f : Formula) : f.negationNormal.IsExpanded :=
  f.isExpanded_expand.pushUnder false

theorem marksLiterals_pushNegation (f : Formula) : f.pushNegation.MarksLiterals :=
  f.marksLiterals_pushUnder false

/-- There is nothing to expand in what is expanded. -/
theorem IsExpanded.expand_eq {f : Formula} (h : f.IsExpanded) : f.expand = f := by
  induction f with
  | literal => rfl
  | binary op a b negated iha ihb =>
    obtain ⟨hOp, hLeft, hRight⟩ := h
    rw [expand, iha hLeft, ihb hRight]
    rcases hOp with rfl | rfl <;> rfl

/-- There is nothing to move if only literals are marked. -/
theorem MarksLiterals.pushNegation_eq {f : Formula} (h : f.MarksLiterals) : f.pushNegation = f := by
  induction f with
  | literal => simp [pushNegation, pushUnder]
  | binary op a b negated iha ihb =>
    obtain ⟨rfl, hLeft, hRight⟩ := h
    show join op a.pushNegation b.pushNegation = join op a b
    rw [iha hLeft, ihb hRight]

/-- Conjunctions and disjunctions of literals, the form of all negation normal forms. -/
structure IsNegationNormal (f : Formula) : Prop where
  isExpanded : f.IsExpanded
  marksLiterals : f.MarksLiterals

/-- A formula of this form is its own negation normal form. -/
theorem IsNegationNormal.negationNormal_eq {f : Formula} (h : f.IsNegationNormal) :
    f.negationNormal = f := by
  rw [negationNormal, h.isExpanded.expand_eq, h.marksLiterals.pushNegation_eq]

theorem isNegationNormal_negationNormal (f : Formula) : f.negationNormal.IsNegationNormal :=
  ⟨f.isExpanded_negationNormal, f.expand.marksLiterals_pushNegation⟩

theorem negationNormal_negationNormal (f : Formula) :
    f.negationNormal.negationNormal = f.negationNormal :=
  f.isNegationNormal_negationNormal.negationNormal_eq

/-! ## Duals -/

/-- Moves all marks to the literals, first the mark of the root and then those of the sides that
this leaves, unless a dual is missing. -/
def pushNegation? (f : Formula) : Except NoDual Formula :=
  match h : f.pushNegationRoot? with
  | .error e => .error e
  | .ok (literal name negated) => .ok (literal name negated)
  | .ok (binary op a b negated) =>
    have hSides : a.expandedLeafCount < f.expandedLeafCount ∧
        b.expandedLeafCount < f.expandedLeafCount := by
      have hBelow := f.pushNegationRoot.sidesBelow_expandedLeafCount
      rw [pushNegationRoot?_eq, Except.ok.injEq] at h
      rwa [expandedLeafCount_pushNegationRoot, h] at hBelow
    do
      let a ← a.pushNegation?
      let b ← b.pushNegation?
      return binary op a b negated
termination_by f.expandedLeafCount

/-- The negation normal form, unless a dual is missing. -/
def negationNormal? (f : Formula) : Except NoDual Formula := f.expand.pushNegation?

/-- Moving negations never misses a dual, however deep the nodes are that it builds. -/
theorem pushNegation?_eq (f : Formula) : f.pushNegation? = .ok f.pushNegation := by
  -- the sides of the new root need not be sides of the formula, but they are smaller once expanded
  fun_induction pushNegation? f with
  | case1 f e h =>
    rw [pushNegationRoot?_eq] at h
    cases h
  | case2 f name negated h =>
    rw [pushNegationRoot?_eq, Except.ok.injEq] at h
    rw [pushNegation_eq_descend, h]
    rfl
  | case3 f op a b negated h hSides ihLeft ihRight =>
    rw [pushNegationRoot?_eq, Except.ok.injEq] at h
    rw [pushNegation_eq_descend, h, ihLeft, ihRight]
    rfl

theorem negationNormal?_eq (f : Formula) : f.negationNormal? = .ok f.negationNormal :=
  f.expand.pushNegation?_eq

/-! ## The rewritings together -/

/-- **Rewriting keeps the meaning and reaches its form.** No rewriting misses a De Morgan dual. Each
keeps the variables and the value under every valuation. Expanding leaves no exclusive or, no
implication and no equivalence, moving negations leaves no marked connective, and the negation
normal form has neither. -/
theorem rewriting_keeps_meaning (f : Formula) :
    (f.pushNegationRoot? = .ok f.pushNegationRoot ∧ f.pushNegation? = .ok f.pushNegation ∧
      f.negationNormal? = .ok f.negationNormal) ∧
    (f.expandRoot.vocabulary = f.vocabulary ∧ f.expandRoot.Equivalent f) ∧
    (f.expand.vocabulary = f.vocabulary ∧ f.expand.Equivalent f) ∧
    (f.pushNegationRoot.vocabulary = f.vocabulary ∧ f.pushNegationRoot.Equivalent f) ∧
    (f.pushNegation.vocabulary = f.vocabulary ∧ f.pushNegation.Equivalent f) ∧
    (f.negationNormal.vocabulary = f.vocabulary ∧ f.negationNormal.Equivalent f) ∧
    f.expand.IsExpanded ∧ f.pushNegation.MarksLiterals ∧
    f.negationNormal.IsExpanded ∧ f.negationNormal.MarksLiterals := by
  have hDuals : f.pushNegationRoot? = .ok f.pushNegationRoot ∧
      f.pushNegation? = .ok f.pushNegation ∧ f.negationNormal? = .ok f.negationNormal :=
    ⟨f.pushNegationRoot?_eq, f.pushNegation?_eq, f.negationNormal?_eq⟩
  -- a rewrite that says the same keeps the variables and the value at once
  have hKeeps : ∀ {g : Formula}, g.Restates f → g.vocabulary = f.vocabulary ∧ g.Equivalent f :=
    fun h => ⟨h.vocabulary_eq, h.equivalent⟩
  exact ⟨hDuals, hKeeps f.restates_expandRoot, hKeeps f.restates_expand,
    hKeeps f.restates_pushNegationRoot, hKeeps f.restates_pushNegation,
    hKeeps f.restates_negationNormal, f.isExpanded_expand, f.marksLiterals_pushNegation,
    f.isExpanded_negationNormal, f.expand.marksLiterals_pushNegation⟩

end Propositional.Formula
