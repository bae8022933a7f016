import Mathlib.Data.List.TFAE
import Propositional.Proofs.Agreement
import Propositional.Proofs.Grouping

/-!
# Propositional — normal forms are canonical

A normal form is read off a table, and a table can be read off a normal form, which has
the variables and the values of the formula. So two formulas have the same normal form if
and only if they have the same table (`Formula.normal_eq_iff_table_eq`), and which of the
two forms is asked for makes no difference. That a tautology or a contradiction has trivial
groups is no exception: these restate the formula as any other groups do.

Equality of tables is also what comparing finds, once the variables are the same. Main
result: `Formula.normalize_canonical`.
-/

namespace Propositional.Formula

variable {form form' : NormalForm} {f g n m : Formula}

/-! ## Tables and forms -/

theorem Restates.table_eq (h : g.Restates f) : g.table = f.table :=
  table_eq_iff.mpr ⟨h.vocabulary_eq, h.equivalent⟩

/-- Formulas have the same normal form if and only if they have the same table. -/
theorem normal_eq_iff_table_eq (hf : f.normalize form = .ok n)
    (hg : g.normalize form = .ok m) : n = m ↔ f.table = g.table := by
  constructor
  · -- the table of either formula is that of the form they share
    rintro rfl
    rw [← (restates_of_normalize_eq_ok hf).table_eq, (restates_of_normalize_eq_ok hg).table_eq]
  · intro hTable
    -- the form is made of the table and of nothing else
    have hn := (normalize_eq_ok_iff.mp hf).2
    have hm := (normalize_eq_ok_iff.mp hg).2
    rw [hTable, hm] at hn
    exact (Option.some.inj hn).symm

/-- Normalizing a normal form gives what normalizing the formula gives, since only the table
matters. -/
theorem normalize_of_normalize (hn : f.normalize form = .ok n) (hm : f.normalize form' = .ok m) :
    n.normalize form' = .ok m := by
  have hRestates := restates_of_normalize_eq_ok hn
  rw [normalize_eq_ok_iff, hRestates.vocabulary_eq, hRestates.table_eq, ← normalize_eq_ok_iff]
  exact hm

/-! ## Tables and comparisons -/

/-- Up to the limit, formulas have the same table by name if they have it. -/
theorem truthTable_eq_iff (hf : f.vocabulary.size ≤ maxVariables)
    (hg : g.vocabulary.size ≤ maxVariables) :
    f.truthTable = g.truthTable ↔ f.table = g.table := by
  rw [truthTable_of_le hf, truthTable_of_le hg, Except.ok.injEq]

/-- Over the same variables, formulas have the same table if they are found equivalent. -/
theorem vocabulary_eq_and_isEquivalent_iff (hf : f.vocabulary.size ≤ maxVariables) :
    f.vocabulary = g.vocabulary ∧ f.isEquivalent g = .ok true ↔ f.table = g.table := by
  rw [table_eq_iff, isEquivalent_eq_ok_true_iff]
  refine and_congr_right fun hNames => and_iff_right ?_
  -- the joint variables are those of either formula
  have hJoint : jointVocabulary [f, g] = f.vocabulary := by
    apply (ordered_jointVocabulary _).eq_of_mem_iff f.ordered_vocabulary
    intro name
    rw [mem_jointVocabulary]
    simp [← mem_vocabulary, hNames]
  rwa [hJoint]

/-- **Normal forms are canonical.** For two formulas with variables up to the limit, equality of
the conjunctive forms, equality of the disjunctive forms, equality of the truth tables, and having
the same variables and being found equivalent are one and the same. Normalizing again, to the same
form or to the other, gives the forms of the formula. -/
theorem normalize_canonical (hf : f.names.toFinset.card ≤ maxVariables)
    (hg : g.names.toFinset.card ≤ maxVariables) :
    ∃ c c' d d' : Formula, f.normalize .cnf = .ok c ∧ g.normalize .cnf = .ok c' ∧
      f.normalize .dnf = .ok d ∧ g.normalize .dnf = .ok d' ∧
      [c = c', d = d', f.truthTable = g.truthTable,
        f.vocabulary = g.vocabulary ∧ f.isEquivalent g = .ok true].TFAE ∧
      c.normalize .cnf = .ok c ∧ d.normalize .dnf = .ok d ∧
      d.normalize .cnf = .ok c ∧ c.normalize .dnf = .ok d := by
  rw [← size_vocabulary] at hf hg
  obtain ⟨c, hc⟩ := exists_normalize_eq_ok .cnf hf
  obtain ⟨c', hc'⟩ := exists_normalize_eq_ok .cnf hg
  obtain ⟨d, hd⟩ := exists_normalize_eq_ok .dnf hf
  obtain ⟨d', hd'⟩ := exists_normalize_eq_ok .dnf hg
  refine ⟨c, c', d, d', hc, hc', hd, hd', ?_, ?_⟩
  · -- each of the four is equality of the tables
    apply List.tfae_of_forall (f.table = g.table)
    simp only [List.forall_mem_cons, List.not_mem_nil, false_imp_iff, implies_true, and_true]
    exact ⟨normal_eq_iff_table_eq hc hc', normal_eq_iff_table_eq hd hd',
      truthTable_eq_iff hf hg, vocabulary_eq_and_isEquivalent_iff hf⟩
  · exact ⟨normalize_of_normalize hc hc, normalize_of_normalize hd hd,
      normalize_of_normalize hd hc, normalize_of_normalize hc hd⟩

/-- An implication and its contraposition have the same normal forms. -/
theorem normalize_canonical_contraposition :
    let f := join .implies (var "A") (var "B")
    let g := join .implies (notVar "B") (notVar "A")
    f.names.toFinset.card ≤ maxVariables ∧ g.names.toFinset.card ≤ maxVariables ∧
      ∃ c d, f.normalize .cnf = .ok c ∧ g.normalize .cnf = .ok c ∧ f.normalize .dnf = .ok d ∧
        g.normalize .dnf = .ok d ∧ c.normalize .dnf = .ok d ∧ d.normalize .cnf = .ok c := by
  intro f g
  have hf : f.names.toFinset.card ≤ maxVariables := by decide
  have hg : g.names.toFinset.card ≤ maxVariables := by decide
  obtain ⟨c, c', d, d', hc, hc', hd, hd', hTfae, -, -, hdc, hcd⟩ := normalize_canonical hf hg
  have hSame : f.vocabulary = g.vocabulary ∧ f.isEquivalent g = .ok true := by
    constructor <;> cbv
  obtain rfl : c = c' := (hTfae.out 3 0).mp hSame
  obtain rfl : d = d' := (hTfae.out 3 1).mp hSame
  exact ⟨hf, hg, c, d, hc, hc', hd, hd', hcd, hdc⟩

end Propositional.Formula
