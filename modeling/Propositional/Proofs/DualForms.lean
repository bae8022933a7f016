import Propositional.Proofs.Duality
import Propositional.Proofs.Grouping

/-!
# Propositional — the two normal forms as duals

A clause denies a row on which the formula is false; on this row the negation is true, and
its term affirms the row. So the clauses of a formula are the duals of the terms of its
negation, row by row and literal by literal (`NormalForm.groupAt?_dual`), and since joining
goes along with duality (`Formula.joinAll?_map_dualize`), negating the disjunctive form of the
negation leads to the conjunctive form.

This holds for every formula that has a row to deny. A tautology has none, and the trivial
clauses that stand in are no duals of the trivial terms: both have the variable first and its
complement second (`Formula.normal_eq_mirror_iff`).

Main result: `Formula.normalize_mirrors`.
-/

namespace Propositional

variable {op : Connective} {form : NormalForm} {row : Assignment} {f n m : Formula}

namespace Formula

/-! ## Normal forms are negation normal -/

/-- A group of literals under AND or OR is in negation normal form. -/
theorem isNegationNormal_of_isGroupOf (hOp : op = .and ∨ op = .or)
    (h : f.isGroupOf op = true) : f.IsNegationNormal := by
  induction f with
  | literal => exact ⟨trivial, trivial⟩
  | binary op' a b negated iha ihb =>
    simp only [isGroupOf, Bool.and_eq_true, beq_iff_eq, Bool.not_eq_true'] at h
    obtain ⟨⟨rfl, rfl⟩, hLeft, hRight⟩ := h
    have ha := iha hLeft
    have hb := ihb hRight
    exact ⟨⟨hOp, ha.isExpanded, hb.isExpanded⟩, rfl, ha.marksLiterals, hb.marksLiterals⟩

/-- What has the shape of a normal form has no other connectives and no other marks. -/
theorem isNegationNormal_of_isNormal (h : f.isNormal form = true) : f.IsNegationNormal := by
  induction f with
  | literal => exact ⟨trivial, trivial⟩
  | binary op a b negated iha ihb =>
    rw [isNormal] at h
    split at h
    -- the outer connective joins two parts of the form; below it stands a group
    next hOuter =>
      simp only [Bool.and_eq_true, beq_iff_eq, Bool.not_eq_true'] at hOuter h
      obtain ⟨rfl, rfl⟩ := hOuter
      have ha := iha h.1
      have hb := ihb h.2
      have hOp : form.outer = .and ∨ form.outer = .or := by cases form <;> decide
      exact ⟨⟨hOp, ha.isExpanded, hb.isExpanded⟩, rfl, ha.marksLiterals, hb.marksLiterals⟩
    next =>
      exact isNegationNormal_of_isGroupOf (by cases form <;> decide) h

/-! ## Joins -/

/-- Mirrored formulas joined by the exchanged connective are the mirror of what was joined. -/
theorem joinAll?_map_dualize (op : Connective) (fs : List Formula) :
    joinAll? op.exchange (fs.map dualize) = (joinAll? op fs).map dualize := by
  cases fs with
  | nil => rfl
  | cons f fs =>
    show some ((fs.map dualize).foldl (join op.exchange) f.dualize) =
      some (fs.foldl (join op) f).dualize
    -- joining commutes with the mirror at every step of the fold
    rw [List.foldl_map, List.foldl_hom dualize fun g x => (dualize_join op g x).symm]

end Formula

namespace NormalForm

open Formula

/-! ## Groups -/

theorem groupedValue_dual (form : NormalForm) :
    form.dual.groupedValue = !form.groupedValue := by
  cases form <;> rfl

/-- One form denies of a row what the other affirms. -/
theorem literalsAt_dual (form : NormalForm) (row : Assignment) :
    (form.dual.literalsAt row).map dualize = form.literalsAt row := by
  simp [literalsAt, groupedValue_dual]

theorem groupAt?_dual (form : NormalForm) (row : Assignment) :
    (form.dual.groupAt? row).map dualize = form.groupAt? row := by
  rw [groupAt?, ← joinAll?_map_dualize, literalsAt_dual, inner_dual,
    Connective.exchange_exchange, groupAt?]

/-- Mirrored, the group that stands for no row names the variable first without its mark. -/
theorem trivialGroup_dual (form : NormalForm) (name : String) :
    (form.dual.trivialGroup name).dualize = join form.inner (notVar name) (var name) := by
  rw [trivialGroup, dualize_join, inner_dual, Connective.exchange_exchange]
  rfl

/-! ## The groups of the negation -/

/-- The duals of the groups that the other form has for the negation. -/
def mirroredGroups (form : NormalForm) (f : Formula) : List Formula :=
  (form.dual.groups f.negate.table).map dualize

/-- The rows that a form is about for a formula are those that the other one is about for the
negation. -/
theorem rowsWith_table_negate (form : NormalForm) (f : Formula) :
    f.negate.table.rowsWith form.dual.groupedValue = f.table.rowsWith form.groupedValue := by
  rw [rowsWith_table, rowsWith_table, groupedValue_dual, vocabulary_negate]
  congr 1
  funext row
  simp

/-- Row by row, what is denied of the formula is affirmed of its negation. -/
theorem mirroredGroups_of_exists (h : ∃ v : Valuation, f.eval v = form.groupedValue) :
    form.mirroredGroups f = form.groups f.table := by
  have hNegate : ∃ v : Valuation, f.negate.eval v = form.dual.groupedValue := by
    obtain ⟨v, hv⟩ := h
    exact ⟨v, by rw [eval_negate, hv, groupedValue_dual]⟩
  rw [mirroredGroups, groups_table_of_exists h, groups_table_of_exists hNegate,
    rowsWith_table_negate, List.map_filterMap]
  congr 1
  funext row
  exact form.groupAt?_dual row

/-- Trivial groups come out with the complement first. -/
theorem mirroredGroups_of_forall (h : ∀ v : Valuation, f.eval v ≠ form.groupedValue) :
    form.mirroredGroups f =
      f.vocabulary.toList.map fun name => join form.inner (notVar name) (var name) := by
  -- then the negated formula never takes the value that the other form groups
  have hNegate : ∀ v : Valuation, f.negate.eval v ≠ form.dual.groupedValue := by
    intro v
    rw [eval_negate, groupedValue_dual]
    exact fun hv => h v (Bool.not_inj hv)
  rw [mirroredGroups, groups_table_of_forall hNegate, vocabulary_negate, List.map_map]
  congr 1
  funext name
  exact form.trivialGroup_dual name

/-- The mirror has as many groups as the form itself. -/
theorem length_mirroredGroups (form : NormalForm) (f : Formula) :
    (form.mirroredGroups f).length = (form.groups f.table).length := by
  by_cases h : ∃ v : Valuation, f.eval v = form.groupedValue
  · rw [mirroredGroups_of_exists h]
  · push Not at h
    rw [mirroredGroups_of_forall h, groups_table_of_forall h, List.length_map, List.length_map]

/-- The groups are mirrored exactly if there is a row that the form is about. -/
theorem mirroredGroups_eq_iff :
    form.mirroredGroups f = form.groups f.table ↔
      ∃ v : Valuation, f.eval v = form.groupedValue := by
  constructor
  · intro hGroups
    by_contra hNone
    push Not at hNone
    rw [mirroredGroups_of_forall hNone, groups_table_of_forall hNone] at hGroups
    -- whichever variable is taken, its two trivial groups differ
    obtain ⟨name, hName⟩ := Array.exists_mem_of_size_pos f.size_vocabulary_pos
    have hGroup := List.map_inj_left.mp hGroups name (Array.mem_toList_iff.mpr hName)
    cases hGroup
  · exact mirroredGroups_of_exists

end NormalForm

namespace Formula

/-! ## Normal forms -/

/-- What becomes of the other form of the negation, when it is negated again, is the join of the
mirrored groups. -/
theorem joinAll?_mirroredGroups (hm : f.negate.normalize form.dual = .ok m) :
    joinAll? form.outer (form.mirroredGroups f) = some m.negate.negationNormal := by
  have hNormal : m.negationNormal = m :=
    (isNegationNormal_of_isNormal (isNormal_of_normalize_eq_ok hm)).negationNormal_eq
  have hJoin := joinAll?_map_dualize form.dual.outer (form.dual.groups f.negate.table)
  rw [(normalize_eq_ok_iff.mp hm).2, NormalForm.outer_dual, Connective.exchange_exchange] at hJoin
  rw [NormalForm.mirroredGroups, hJoin, negationNormal_negate, hNormal]
  rfl

/-- A normal form mirrors the other normal form of the negation if and only if there is a row that
it is about. -/
theorem normal_eq_mirror_iff (hn : f.normalize form = .ok n)
    (hm : f.negate.normalize form.dual = .ok m) :
    n = m.negate.negationNormal ↔ ∃ v : Valuation, f.eval v = form.groupedValue := by
  have hJoin := (normalize_eq_ok_iff.mp hn).2
  have hMirror := joinAll?_mirroredGroups hm
  -- joins of equally many groups are the same tree only if the groups are the same
  calc n = m.negate.negationNormal
      ↔ joinAll? form.outer (form.mirroredGroups f) =
          joinAll? form.outer (form.groups f.table) := by
        rw [hJoin, hMirror, Option.some.injEq, eq_comm]
    _ ↔ form.mirroredGroups f = form.groups f.table :=
        ⟨joinAll?_injective (form.length_mirroredGroups f), fun h => by rw [h]⟩
    _ ↔ ∃ v : Valuation, f.eval v = form.groupedValue := NormalForm.mirroredGroups_eq_iff

/-- **The two normal forms are duals.** The conjunctive form of a formula is what becomes of the
disjunctive form of its negation when that is negated again and the negation moved to the literals,
tree for tree, exactly if the formula can be falsified; and with the forms exchanged, exactly if
it can be satisfied. -/
theorem normalize_mirrors (h : f.names.toFinset.card ≤ maxVariables) :
    (∃ c d, f.normalize .cnf = .ok c ∧ f.negate.normalize .dnf = .ok d ∧
      (c = d.negate.negationNormal ↔ ∃ v : Valuation, f.eval v = false)) ∧
    (∃ d c, f.normalize .dnf = .ok d ∧ f.negate.normalize .cnf = .ok c ∧
      (d = c.negate.negationNormal ↔ ∃ v : Valuation, f.eval v = true)) := by
  rw [← size_vocabulary] at h
  have hNegate : f.negate.vocabulary.size ≤ maxVariables := by rwa [vocabulary_negate]
  -- both halves are one statement, about a form and its dual
  have hForm : ∀ form : NormalForm, ∃ n m, f.normalize form = .ok n ∧
      f.negate.normalize form.dual = .ok m ∧
      (n = m.negate.negationNormal ↔ ∃ v : Valuation, f.eval v = form.groupedValue) := by
    intro form
    obtain ⟨n, hn⟩ := exists_normalize_eq_ok form h
    obtain ⟨m, hm⟩ := exists_normalize_eq_ok form.dual hNegate
    exact ⟨n, m, hn, hm, normal_eq_mirror_iff hn hm⟩
  exact ⟨hForm .cnf, hForm .dnf⟩

/-- An exclusive or can be falsified, so the mirror of what its negation says is its own conjunctive
form; a formula that cannot has its literals in the other order. -/
theorem normalize_mirrors_xor :
    let f := join .xor (var "A") (var "B")
    let c := join .and (join .or (var "A") (var "B")) (join .or (notVar "A") (notVar "B"))
    let d := join .or (join .and (notVar "A") (notVar "B")) (join .and (var "A") (var "B"))
    let top := join .implies (var "A") (var "A")
    f.names.toFinset.card ≤ maxVariables ∧ f.normalize .cnf = .ok c ∧
      f.negate.normalize .dnf = .ok d ∧ f.eval (fun _ => true) = false ∧
      c = d.negate.negationNormal ∧
      top.names.toFinset.card ≤ maxVariables ∧ (∀ v : Valuation, top.eval v = true) ∧
      ∃ c' d', top.normalize .cnf = .ok c' ∧ top.negate.normalize .dnf = .ok d' ∧
        c' ≠ d'.negate.negationNormal := by
  intro f c d top
  have hSize : f.names.toFinset.card ≤ maxVariables := by decide
  have hSizeTop : top.names.toFinset.card ≤ maxVariables := by decide
  have hc : f.normalize .cnf = .ok c := by cbv
  have hd : f.negate.normalize .dnf = .ok d := by cbv
  have hFalse : f.eval (fun _ => true) = false := by decide
  obtain ⟨⟨c₁, d₁, hc₁, hd₁, hMirror⟩, -⟩ := normalize_mirrors hSize
  obtain rfl : c = c₁ := Except.ok.inj (hc.symm.trans hc₁)
  obtain rfl : d = d₁ := Except.ok.inj (hd.symm.trans hd₁)
  have hTrue : ∀ v : Valuation, top.eval v = true := by
    intro v
    simp [top, eval, join, var, Connective.apply]
  obtain ⟨⟨c', d', hc', hd', hMirrorTop⟩, -⟩ := normalize_mirrors hSizeTop
  refine ⟨hSize, hc, hd, hFalse, hMirror.mpr ⟨_, hFalse⟩, hSizeTop, hTrue, c', d', hc', hd', ?_⟩
  -- nothing refutes `A IMPLIES A`, so its form is no mirror
  intro hEq
  obtain ⟨v, hv⟩ := hMirrorTop.mp hEq
  rw [hTrue v] at hv
  cases hv

end Formula

end Propositional
