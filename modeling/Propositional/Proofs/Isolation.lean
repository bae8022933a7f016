import Mathlib.Data.List.Forall2
import Mathlib.Data.List.Permutation
import Propositional.Proofs.Coding
import Propositional.Proofs.Grouping

/-!
# Propositional — normal forms row by row

A group of a normal form was made from a row, and the row can be found again from what the
group says: of all rows it is the only one where the group has the value that its form is
about (`NormalForm.Isolates`). The joins inside and outside neither drop, merge nor reorder
anything, so a normal form is the left fold of one group for each of its rows, in the order
of the rows, and its size is known from their number.

Where there is no such row, the trivial groups have two leaves for each variable.

Main result: `Formula.normalize_isolates_rows`.
-/

namespace Propositional

variable {form : NormalForm} {row : Assignment} {f g group : Formula}

namespace NormalForm

open Formula

/-! ## The group of a row -/

/-- A group is for a row of a formula: it is made of literals by the inner connective, it names each
variable of the formula once and in order, and of all rows the row is the only one where it has the
value of its form. -/
structure Isolates (form : NormalForm) (f : Formula) (row : Assignment) (group : Formula) :
    Prop where
  shape : group.isGroupOf form.inner = true
  ordered : group.names.Pairwise (· < ·)
  mem_names : ∀ name, name ∈ group.names ↔ name ∈ f.names
  eval_eq_iff : ∀ row' ∈ Assignment.rows f.vocabulary,
    group.eval row'.value = form.groupedValue ↔ row' = row

/-- The group of a row isolates the row. -/
theorem isolates_groupAt? (hRow : row ∈ Assignment.rows f.vocabulary)
    (h : form.groupAt? row = some group) : form.Isolates f row group := by
  have hNames := names_groupAt? hRow h
  constructor
  · exact isGroupOf_groupAt? h
  · rw [hNames]
    exact f.ordered_vocabulary
  · intro name
    rw [hNames, Array.mem_toList_iff, mem_vocabulary]
  · intro row' hRow'
    rw [eval_groupAt?_eq_iff hRow h, Assignment.encode_value_of_mem f.ordered_vocabulary hRow']
    -- rows over the same names are told apart by their numbers
    obtain ⟨names, index⟩ := row
    obtain ⟨names', index'⟩ := row'
    obtain ⟨rfl, -⟩ := Assignment.mem_rows.mp hRow
    obtain ⟨rfl, -⟩ := Assignment.mem_rows.mp hRow'
    simp

/-- Each variable has one leaf in a group. -/
theorem leafCount_groupAt? (hRow : row ∈ Assignment.rows f.vocabulary)
    (h : form.groupAt? row = some group) : group.leafCount = f.vocabulary.size := by
  rw [← length_names, names_groupAt? hRow h, Array.length_toList]

/-! ## One group for each row -/

/-- Rows of a formula have their groups in the same order. -/
theorem forall₂_isolates {rows : List Assignment}
    (hRows : ∀ row ∈ rows, row ∈ Assignment.rows f.vocabulary) :
    List.Forall₂ (form.Isolates f) rows (rows.filterMap form.groupAt?) := by
  induction rows with
  | nil => exact .nil
  | cons row rows ih =>
    obtain ⟨hRow, hRows⟩ := List.forall_mem_cons.mp hRows
    obtain ⟨group, hGroup⟩ := form.exists_groupAt?_eq_some hRow
    rw [List.filterMap_cons_some hGroup]
    exact .cons (isolates_groupAt? hRow hGroup) (ih hRows)

end NormalForm

namespace Formula

open NormalForm

/-! ## Normal forms -/

/-- A normal form with groups for rows is the left fold of these groups. -/
theorem exists_isolates (hNormalize : f.normalize form = .ok g)
    (h : ∃ v : Valuation, f.eval v = form.groupedValue) : ∃ first rest,
      List.Forall₂ (form.Isolates f) (f.table.rowsWith form.groupedValue) (first :: rest) ∧
      g = rest.foldl (join form.outer) first := by
  have hJoin := (normalize_eq_ok_iff.mp hNormalize).2
  have hIsolates : List.Forall₂ (form.Isolates f) (f.table.rowsWith form.groupedValue)
      (form.groups f.table) := by
    rw [groups_table_of_exists h]
    exact forall₂_isolates fun row hRow => (mem_rowsWith_table.mp hRow).1
  -- some row has that value, so there is a first group
  match hGroups : form.groups f.table with
  | [] =>
    rw [hGroups] at hJoin
    cases hJoin
  | first :: rest =>
    rw [hGroups] at hIsolates hJoin
    exact ⟨first, rest, hIsolates, (Option.some.inj hJoin).symm⟩

/-- It has a leaf for each variable and each of its rows. -/
theorem leafCount_of_exists (hNormalize : f.normalize form = .ok g)
    (h : ∃ v : Valuation, f.eval v = form.groupedValue) :
    g.leafCount = f.vocabulary.size * (f.table.rowsWith form.groupedValue).length := by
  obtain ⟨-, hJoin⟩ := normalize_eq_ok_iff.mp hNormalize
  have hRows : ∀ row ∈ f.table.rowsWith form.groupedValue, row ∈ Assignment.rows f.vocabulary :=
    fun row hRow => (mem_rowsWith_table.mp hRow).1
  rw [groups_table_of_exists h] at hJoin
  -- each group has one literal for each name
  have hLeaves : ∀ group ∈ (f.table.rowsWith form.groupedValue).filterMap form.groupAt?,
      group.leafCount = f.vocabulary.size := by
    intro group hMem
    obtain ⟨row, hRow, hGroup⟩ := List.mem_filterMap.mp hMem
    exact leafCount_groupAt? (hRows row hRow) hGroup
  have hIsolates : List.Forall₂ (form.Isolates f) (f.table.rowsWith form.groupedValue) _ :=
    forall₂_isolates hRows
  rw [leafCount_joinAll? hLeaves hJoin, hIsolates.length_eq]

/-- Trivial groups have two leaves for each variable. -/
theorem leafCount_of_forall (hNormalize : f.normalize form = .ok g)
    (h : ∀ v : Valuation, f.eval v ≠ form.groupedValue) : g.leafCount = 2 * f.vocabulary.size := by
  obtain ⟨-, hJoin⟩ := normalize_eq_ok_iff.mp hNormalize
  rw [groups_table_of_forall h] at hJoin
  have hLeaves : ∀ group ∈ f.vocabulary.toList.map form.trivialGroup, group.leafCount = 2 := by
    intro group hMem
    obtain ⟨name, -, rfl⟩ := List.mem_map.mp hMem
    rfl
  rw [leafCount_joinAll? hLeaves hJoin, List.length_map, Array.length_toList]

/-- **A normal form isolates its rows.** Up to the limit of variables there is a normal form. If the
formula has the value of the form somewhere, the normal form is the left fold of one group for each
row where it has it, in the order of the numbers, and each group isolates its row; so the leaves
are as many as the variables times these rows. If the formula has the value nowhere, there are two
leaves for each variable. -/
theorem normalize_isolates_rows (form : NormalForm) (h : f.names.toFinset.card ≤ maxVariables) :
    ∃ g, f.normalize form = .ok g ∧
      ((∃ v : Valuation, f.eval v = form.groupedValue) →
        ∃ (rows : List Assignment) (first : Formula) (rest : List Formula),
          rows.Pairwise (fun row row' => row.index < row'.index) ∧
          (∀ row, row ∈ rows ↔
            row ∈ Assignment.rows f.vocabulary ∧ f.eval row.value = form.groupedValue) ∧
          List.Forall₂ (form.Isolates f) rows (first :: rest) ∧
          g = rest.foldl (join form.outer) first ∧
          g.leafCount = f.names.toFinset.card * rows.length) ∧
      ((∀ v : Valuation, f.eval v ≠ form.groupedValue) →
        g.leafCount = 2 * f.names.toFinset.card) := by
  rw [← size_vocabulary] at h ⊢
  obtain ⟨g, hNormalize⟩ := exists_normalize_eq_ok form h
  refine ⟨g, hNormalize, ?_, leafCount_of_forall hNormalize⟩
  intro hValue
  obtain ⟨first, rest, hIsolates, hFold⟩ := exists_isolates hNormalize hValue
  -- the rows are in the order of the table, from which they are filtered
  have hSublist : (f.table.rowsWith form.groupedValue).Sublist (Assignment.rows f.vocabulary) := by
    rw [rowsWith_table]
    exact List.filter_sublist
  exact ⟨f.table.rowsWith form.groupedValue, first, rest, Assignment.pairwise_of_sublist hSublist,
    fun _ => mem_rowsWith_table, hIsolates, hFold, leafCount_of_exists hNormalize hValue⟩

/-- Exclusive or has two terms with two literals each, and a tautology in one variable has one
trivial clause. -/
theorem normalize_isolates_rows_xor :
    let f := join .xor (var "A") (var "B")
    let g := join .or (join .and (var "A") (notVar "B")) (join .and (notVar "A") (var "B"))
    let tautology := join .implies (var "A") (var "A")
    (f.names.toFinset.card ≤ maxVariables ∧ f.normalize .dnf = .ok g ∧
      ∃ (rows : List Assignment) (first : Formula) (rest : List Formula), rows.length = 2 ∧
        List.Forall₂ (NormalForm.dnf.Isolates f) rows (first :: rest) ∧
        g = rest.foldl (join .or) first) ∧
    (tautology.names.toFinset.card ≤ maxVariables ∧
      ∃ g, tautology.normalize .cnf = .ok g ∧ g.leafCount = 2) := by
  intro f g tautology
  have hSize : f.names.toFinset.card ≤ maxVariables := by decide
  have hSizeTautology : tautology.names.toFinset.card ≤ maxVariables := by decide
  constructor
  · obtain ⟨g', hNormalize, hRows, -⟩ := normalize_isolates_rows .dnf hSize
    have hForm : f.normalize .dnf = .ok g := by cbv
    obtain rfl : g' = g := by
      rw [hNormalize, Except.ok.injEq] at hForm
      exact hForm
    have hSatisfiable : ∃ v : Valuation, f.eval v = true := ⟨fun name => name == "A", by decide⟩
    obtain ⟨rows, first, rest, -, -, hIsolates, hFold, hLeaves⟩ := hRows hSatisfiable
    -- four leaves for two variables
    have hLength : 4 = 2 * rows.length := hLeaves
    exact ⟨hSize, hForm, rows, first, rest, by omega, hIsolates, hFold⟩
  · obtain ⟨g', hNormalize, -, hTrivial⟩ := normalize_isolates_rows .cnf hSizeTautology
    have hTrue : ∀ v : Valuation, tautology.eval v ≠ false := by
      intro v
      simp [tautology, var, eval, Connective.apply]
    exact ⟨hSizeTautology, g', hNormalize, hTrivial hTrue⟩

end Formula

end Propositional
