import Propositional.Proofs.DualForms

/-!
# Propositional — what rewriting leaves alone

A rewriting that reaches its form whatever it is given changes every formula that is not in
form: what it leaves alone is a result of it. The other half is that nothing happens in a
formula that is in form already, at no node. So the formulas that a rewriting leaves alone are
those of its form, a second run finds nothing to do, and both can be read off the single
connectives and their marks (`Formula.EachConnective`).

Main result: `Formula.rewriting_fixes_formulas_in_form`.
-/

namespace Propositional.Formula

variable {op : Connective} {a b f : Formula} {name : String} {negated : Bool}
variable {p : Connective → Bool → Prop}

/-! ## Node by node -/

/-- Every connective of a formula, wherever it stands, has a property together with its mark. -/
def EachConnective (p : Connective → Bool → Prop) (f : Formula) : Prop :=
  ∀ op a b negated, Subformula (binary op a b negated) f → p op negated

theorem eachConnective_literal : (literal name negated).EachConnective p := by
  intro op a b negated' hSub
  cases hSub

/-- A property of all connectives is one of the root and of those on either side. -/
theorem eachConnective_binary :
    (binary op a b negated).EachConnective p ↔
      p op negated ∧ a.EachConnective p ∧ b.EachConnective p := by
  constructor
  · intro h
    exact ⟨h op a b negated .refl, fun op' a' b' negated' hSub => h op' a' b' negated' (.left hSub),
      fun op' a' b' negated' hSub => h op' a' b' negated' (.right hSub)⟩
  · rintro ⟨hRoot, hLeft, hRight⟩ op' a' b' negated' hSub
    cases hSub with
    | refl => exact hRoot
    | left hSub => exact hLeft op' a' b' negated' hSub
    | right hSub => exact hRight op' a' b' negated' hSub

theorem isExpanded_iff :
    f.IsExpanded ↔ f.EachConnective fun op _ => op = .and ∨ op = .or := by
  induction f with
  | literal => exact iff_of_true trivial eachConnective_literal
  | binary op a b negated iha ihb => rw [eachConnective_binary, ← iha, ← ihb, IsExpanded]

theorem marksLiterals_iff :
    f.MarksLiterals ↔ f.EachConnective fun _ negated => negated = false := by
  induction f with
  | literal => exact iff_of_true trivial eachConnective_literal
  | binary op a b negated iha ihb => rw [eachConnective_binary, ← iha, ← ihb, MarksLiterals]

/-! ## Formulas in form -/

/-- Expanding fixes what is expanded, and nothing else. -/
theorem expand_eq_self_iff : f.expand = f ↔ f.IsExpanded := by
  refine ⟨fun h => ?_, IsExpanded.expand_eq⟩
  rw [← h]
  exact f.isExpanded_expand

/-- Moving marks fixes what has none on a connective, and nothing else. -/
theorem pushNegation_eq_self_iff : f.pushNegation = f ↔ f.MarksLiterals := by
  refine ⟨fun h => ?_, MarksLiterals.pushNegation_eq⟩
  rw [← h]
  exact f.marksLiterals_pushNegation

/-- Rewriting to negation normal form fixes what is in it, and nothing else. -/
theorem negationNormal_eq_self_iff : f.negationNormal = f ↔ f.IsNegationNormal := by
  refine ⟨fun h => ?_, IsNegationNormal.negationNormal_eq⟩
  rw [← h]
  exact f.isNegationNormal_negationNormal

/-- **Rewriting leaves alone what is in form, and nothing else.** Expanding changes a formula unless
it has no exclusive or, no implication and no equivalence. Moving negations changes it unless it
has no marked connective. The negation normal form is another formula unless both hold. So none of
them does anything the second time, and none of them changes a conjunctive or disjunctive normal
form. -/
theorem rewriting_fixes_formulas_in_form (f : Formula) :
    (f.expand = f ↔ f.EachConnective fun op _ => op = .and ∨ op = .or) ∧
    (f.pushNegation = f ↔ f.EachConnective fun _ negated => negated = false) ∧
    (f.negationNormal = f ↔ (f.EachConnective fun op _ => op = .and ∨ op = .or) ∧
      f.EachConnective fun _ negated => negated = false) ∧
    f.expand.expand = f.expand ∧ f.pushNegation.pushNegation = f.pushNegation ∧
    f.negationNormal.negationNormal = f.negationNormal ∧
    ∀ form, f.isNormal form = true →
      f.expand = f ∧ f.pushNegation = f ∧ f.negationNormal = f := by
  rw [← isExpanded_iff, ← marksLiterals_iff]
  refine ⟨expand_eq_self_iff, pushNegation_eq_self_iff, ?_, f.isExpanded_expand.expand_eq,
    f.marksLiterals_pushNegation.pushNegation_eq, f.negationNormal_negationNormal, ?_⟩
  · rw [negationNormal_eq_self_iff]
    exact ⟨fun h => ⟨h.isExpanded, h.marksLiterals⟩, fun h => ⟨h.1, h.2⟩⟩
  · intro form hNormal
    -- both normal forms are negation normal
    have hForm := isNegationNormal_of_isNormal hNormal
    exact ⟨hForm.isExpanded.expand_eq, hForm.marksLiterals.pushNegation_eq,
      hForm.negationNormal_eq⟩

/-- Two clauses are left alone, and a marked conjunction is changed by one of the rewritings. -/
theorem rewriting_fixes_formulas_in_form_clauses :
    let f := join .and (join .or (var "A") (notVar "B")) (var "C")
    let g := (join .and (var "A") (var "B")).negate
    f.isNormal .cnf = true ∧ f.expand = f ∧ f.pushNegation = f ∧ f.negationNormal = f ∧
      g.expand = g ∧ g.pushNegation ≠ g ∧ g.negationNormal ≠ g := by
  intro f g
  have hNormal : f.isNormal .cnf = true := by decide
  obtain ⟨-, -, -, -, -, -, hClauses⟩ := rewriting_fixes_formulas_in_form f
  obtain ⟨hExpand, hPush, hForm⟩ := hClauses .cnf hNormal
  obtain ⟨-, hUnmarked, hBoth, -⟩ := rewriting_fixes_formulas_in_form g
  have hMarked : ¬ g.EachConnective fun _ negated => negated = false := by
    intro h
    cases h .and (var "A") (var "B") true .refl
  exact ⟨hNormal, hExpand, hPush, hForm, rfl, fun h => hMarked (hUnmarked.mp h),
    fun h => hMarked (hBoth.mp h).2⟩

end Propositional.Formula
