import Propositional.Proofs.Agreement
import Propositional.Proofs.Verdicts

/-!
# Propositional — equivalence as validity

Comparing two formulas, looking for the first rows of a formula and tabulating it are three
ways of enumerating. The first goes over the joint variables of two formulas, the others over
the variables of one; if that one joins the two, the variables are the same
(`Formula.vocabulary_join`), so the same number of them is refused. Where they are not refused,
each way gives an answer about all valuations, and a biconditional is true exactly where an
exclusive or is false and where the two sides have the same value.

Main result: `Formula.isEquivalent_eq_isTautology`.
-/

namespace Propositional.Formula

variable {f g : Formula} {value : Bool}

/-- The variables of a join are the joint variables of its sides. -/
theorem vocabulary_join (op : Connective) (f g : Formula) :
    (join op f g).vocabulary = jointVocabulary [f, g] := by
  simp [vocabulary, jointVocabulary, join]

/-- A table has one value everywhere if and only if all valuations give it. -/
theorem forall_values_table_iff :
    (∀ other ∈ f.table.values, other = value) ↔ ∀ v : Valuation, f.eval v = value := by
  rw [table, List.forall_mem_map]
  apply Assignment.forall_mem_rows_iff f.ordered_vocabulary (p := fun v => f.eval v = value)
  intro v w hAgree hv
  rw [← hv]
  exact (eval_congr fun name hName => hAgree name (mem_vocabulary.mpr hName)).symm

/-- A table shows a tautology exactly if every valuation satisfies the formula. -/
theorem isTautology_table_iff : f.table.isTautology = true ↔ ∀ v : Valuation, f.eval v = true := by
  rw [← forall_values_table_iff, TruthTable.isTautology]
  simp only [List.all_eq_true, beq_iff_eq]

/-- A table shows a contradiction exactly if no valuation satisfies the formula. -/
theorem isContradiction_table_iff :
    f.table.isContradiction = true ↔ ∀ v : Valuation, f.eval v = false := by
  rw [← forall_values_table_iff, TruthTable.isContradiction]
  simp only [List.all_eq_true, beq_iff_eq]

/-- **Equivalence is validity.** Whether two formulas are equivalent, whether their biconditional
is a tautology and whether their exclusive or is a contradiction is one question, also if there are
too many variables to answer it. -/
theorem isEquivalent_eq_isTautology (f g : Formula) :
    f.isEquivalent g = (join .iff f g).verdict.map Verdict.isTautology ∧
    f.isEquivalent g = (join .xor f g).truthTable.map TruthTable.isContradiction := by
  have hIff := vocabulary_join .iff f g
  have hXor := vocabulary_join .xor f g
  -- the joined formula has the variables of both, so all three are refused together
  rcases Nat.lt_or_ge maxVariables (jointVocabulary [f, g]).size with h | h
  · rw [isEquivalent_of_lt h, verdict_of_lt (hIff ▸ h), truthTable_of_lt (hXor ▸ h), hIff, hXor]
    exact ⟨rfl, rfl⟩
  · obtain ⟨answer, hAnswer, hEquivalent⟩ := exists_isEquivalent_eq_ok h
    rw [hAnswer, verdict_of_le (hIff ▸ h), truthTable_of_le (hXor ▸ h)]
    constructor
    · show _ = Except.ok (join .iff f g).firstRows.isTautology
      rw [isTautology_firstRows, Except.ok.injEq, Bool.eq_iff_iff, hEquivalent,
        isTautology_table_iff]
      exact forall_congr' fun v => by simp [Connective.apply]
    · show _ = Except.ok (join .xor f g).table.isContradiction
      rw [Except.ok.injEq, Bool.eq_iff_iff, hEquivalent, isContradiction_table_iff]
      exact forall_congr' fun v => by simp [Connective.apply]

end Propositional.Formula
