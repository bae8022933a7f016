import Propositional.Proofs.Joining
import Propositional.Proofs.Restatement
import Propositional.Proofs.Tabulation

/-!
# Propositional — groups and rows

Each form has a value that its groups are there for, false for clauses and true for terms,
and in these words both forms are one. The group of a row has the value under those
valuations that are encoded as the row, and under no other
(`NormalForm.eval_groupAt?_eq_iff`). So the groups of a table have it together where the
formula has it. Where no row has a group, the trivial groups that stand in never have the
value, and neither has the formula.

There is always a group, because a formula has a variable; a normal form is the join of the
groups, and the formula itself never has to stand in for it.

Main result: `Formula.normalize_restates`.
-/

namespace Propositional

variable {value : Bool} {form : NormalForm} {names : Array String} {row : Assignment}
  {f g : Formula} {v : Valuation} {name : String}

namespace NormalForm

open Formula

/-! ## The group of a row -/

/-- Each row of a formula has a group, because a formula has a variable. -/
theorem exists_groupAt?_eq_some (form : NormalForm) (hRow : row ∈ Assignment.rows f.vocabulary) :
    ∃ g, form.groupAt? row = some g := by
  obtain ⟨hNames, -⟩ := Assignment.mem_rows.mp hRow
  have hPair := Assignment.mem_pairs.mpr ⟨0, hNames ▸ f.size_vocabulary_pos, rfl⟩
  exact exists_joinAll?_eq_some (List.mem_map_of_mem hPair)

theorem isGroupOf_groupAt? (h : form.groupAt? row = some g) : g.isGroupOf form.inner = true := by
  apply isGroupOf_joinAll? _ h
  intro f hf
  obtain ⟨pair, -, rfl⟩ := List.mem_map.mp hf
  rfl

/-- The group of a row names each variable once, in order. -/
theorem names_groupAt? (hRow : row ∈ Assignment.rows names) (h : form.groupAt? row = some g) :
    g.names = names.toList := by
  obtain ⟨rfl, -⟩ := Assignment.mem_rows.mp hRow
  rw [names_joinAll? h, literalsAt, List.flatMap_map, ← row.map_fst_pairs]
  exact List.flatMap_pure_eq_map Prod.fst row.pairs

/-- The literal for a bit has the other value where the name has not the bit. -/
theorem eval_literal_eq_iff {bit : Bool} :
    (literal name (bit ^^ value)).eval v = (!value) ↔ v name ≠ bit := by
  rw [eval]
  cases v name <;> cases bit <;> cases value <;> decide

/-- **A group is for its row.** It has the value of its form under the valuations that are encoded
as the row, and under no others. -/
theorem eval_groupAt?_eq_iff (hRow : row ∈ Assignment.rows names)
    (h : form.groupAt? row = some g) :
    g.eval v = form.groupedValue ↔ Assignment.encode names.toList v = row.index := by
  -- the other value is the one that the inner connective absorbs
  have hOther : g.eval v = (!form.groupedValue) ↔ ∃ pair ∈ row.pairs, v pair.1 ≠ pair.2 := by
    rw [eval_joinAll?_eq_iff form.absorbs_inner h]
    simp only [literalsAt, List.mem_map, exists_exists_and_eq_and, eval_literal_eq_iff]
  obtain ⟨rfl, -⟩ := Assignment.mem_rows.mp hRow
  calc g.eval v = form.groupedValue ↔ ¬ g.eval v = (!form.groupedValue) := by
        rw [Bool.not_eq_not]
    _ ↔ ∀ pair ∈ row.pairs, v pair.1 = pair.2 := by
        simp only [hOther, ne_eq, not_exists, not_and, not_not]
    _ ↔ ∀ (i : Nat) (h : i < row.names.size), v row.names[i] = row.index.testBit i := by
        simp only [Assignment.mem_pairs, forall_exists_index]
        grind
    _ ↔ Assignment.encode row.names.toList v = row.index :=
        (Assignment.encode_eq_index_iff hRow).symm

/-! ## The groups of a table -/

/-- The trivial group never takes the value that the form groups. -/
theorem eval_trivialGroup_ne (form : NormalForm) (name : String) (v : Valuation) :
    (form.trivialGroup name).eval v ≠ form.groupedValue := by
  rw [trivialGroup, eval_join, var, notVar, eval, eval]
  cases form <;> cases v name <;> decide

/-- The groups are those of the rows that the form is about, or the trivial ones if there is no
such row. -/
theorem mem_groups_table :
    g ∈ form.groups f.table ↔
      (∃ row ∈ f.table.rowsWith form.groupedValue, form.groupAt? row = some g) ∨
      (f.table.rowsWith form.groupedValue = [] ∧
        ∃ name ∈ f.vocabulary, form.trivialGroup name = g) := by
  unfold groups
  split
  next hNone =>
    -- a row would have a group
    have hEmpty : f.table.rowsWith form.groupedValue = [] := by
      apply List.eq_nil_iff_forall_not_mem.mpr
      intro row hRow
      obtain ⟨g, hg⟩ := form.exists_groupAt?_eq_some (mem_rowsWith_table.mp hRow).1
      rw [List.filterMap_eq_nil_iff.mp hNone row hRow] at hg
      cases hg
    simp [hEmpty]
  next hSome =>
    have hRows : f.table.rowsWith form.groupedValue ≠ [] := by
      intro hEmpty
      rw [hEmpty] at hSome
      exact hSome rfl
    simp [hRows]

/-- The groups together are for the value of the form, wherever the formula has it. -/
theorem exists_eval_groups_iff (form : NormalForm) (f : Formula) (v : Valuation) :
    (∃ g ∈ form.groups f.table, g.eval v = form.groupedValue) ↔
      f.eval v = form.groupedValue := by
  constructor
  · rintro ⟨g, hg, hEval⟩
    rcases mem_groups_table.mp hg with ⟨row, hRow, hGroup⟩ | ⟨-, name, -, rfl⟩
    · -- the row is the one that the valuation is encoded as
      obtain ⟨hMem, hValue⟩ := mem_rowsWith_table.mp hRow
      have hEq : row = ⟨f.vocabulary, Assignment.encode f.vocabulary.toList v⟩ := by
        rw [(eval_groupAt?_eq_iff hMem hGroup).mp hEval, ← (Assignment.mem_rows.mp hMem).1]
      rw [← hValue, hEq, eval_encode f.ordered_vocabulary fun _ => mem_vocabulary.mpr]
    · exact absurd hEval (form.eval_trivialGroup_ne name v)
  -- the row that the valuation is encoded as has a group, and no other row's group holds there
  · intro hEval
    have hMem := Assignment.encode_mem_rows f.vocabulary v
    have hRow := mem_rowsWith_table.mpr ⟨hMem,
      (eval_encode f.ordered_vocabulary (fun _ => mem_vocabulary.mpr) v).trans hEval⟩
    obtain ⟨g, hGroup⟩ := form.exists_groupAt?_eq_some hMem
    exact ⟨g, mem_groups_table.mpr (.inl ⟨_, hRow, hGroup⟩),
      (eval_groupAt?_eq_iff hMem hGroup).mpr rfl⟩

/-- Where the value occurs, the groups are those of its rows. -/
theorem groups_table_of_exists (h : ∃ v : Valuation, f.eval v = form.groupedValue) :
    form.groups f.table = (f.table.rowsWith form.groupedValue).filterMap form.groupAt? := by
  unfold groups
  split
  next hNone =>
    -- a valuation with that value would have a row, and the row a group
    obtain ⟨v, hv⟩ := h
    obtain ⟨g, hg, hEval⟩ := (form.exists_eval_groups_iff f v).mpr hv
    rcases mem_groups_table.mp hg with ⟨row, hRow, hGroup⟩ | ⟨-, name, -, rfl⟩
    · rw [List.filterMap_eq_nil_iff.mp hNone row hRow] at hGroup
      cases hGroup
    · exact absurd hEval (form.eval_trivialGroup_ne name v)
  next => rfl

/-- Where it does not occur, they are the trivial ones. -/
theorem groups_table_of_forall (h : ∀ v : Valuation, f.eval v ≠ form.groupedValue) :
    form.groups f.table = f.vocabulary.toList.map form.trivialGroup := by
  have hRows : f.table.rowsWith form.groupedValue = [] := by
    apply List.eq_nil_iff_forall_not_mem.mpr
    intro row hRow
    exact h row.value (mem_rowsWith_table.mp hRow).2
  rw [groups, hRows]
  rfl

/-- The groups together have the variables of the formula, also where no row has a group. -/
theorem exists_mem_names_groups_iff (form : NormalForm) (f : Formula) (name : String) :
    (∃ g ∈ form.groups f.table, name ∈ g.names) ↔ name ∈ f.names := by
  have hGroupNames : ∀ row ∈ f.table.rowsWith form.groupedValue, ∀ g,
      form.groupAt? row = some g → (name ∈ g.names ↔ name ∈ f.names) := by
    intro row hRow g hGroup
    rw [names_groupAt? (mem_rowsWith_table.mp hRow).1 hGroup, Array.mem_toList_iff, mem_vocabulary]
  constructor
  · rintro ⟨g, hg, hName⟩
    rcases mem_groups_table.mp hg with ⟨row, hRow, hGroup⟩ | ⟨-, name', hName', rfl⟩
    · exact (hGroupNames row hRow g hGroup).mp hName
    · have hEq : name = name' := by simpa [trivialGroup, join, var, notVar] using hName
      rwa [hEq, ← mem_vocabulary]
  · intro hName
    -- without a row of that value there is a trivial group for every name
    cases hRows : f.table.rowsWith form.groupedValue with
    | nil =>
      refine ⟨form.trivialGroup name, mem_groups_table.mpr (.inr ⟨hRows, name, ?_, rfl⟩), ?_⟩
      · exact mem_vocabulary.mpr hName
      · simp [trivialGroup, join, var]
    | cons row rest =>
      have hRow : row ∈ f.table.rowsWith form.groupedValue := by simp [hRows]
      obtain ⟨g, hGroup⟩ := form.exists_groupAt?_eq_some (mem_rowsWith_table.mp hRow).1
      exact ⟨g, mem_groups_table.mpr (.inl ⟨row, hRow, hGroup⟩),
        (hGroupNames row hRow g hGroup).mpr hName⟩

theorem isGroupOf_groups (hg : g ∈ form.groups f.table) : g.isGroupOf form.inner = true := by
  rcases mem_groups_table.mp hg with ⟨row, -, hGroup⟩ | ⟨-, name, -, rfl⟩
  · exact isGroupOf_groupAt? hGroup
  · simp [trivialGroup, join, var, notVar, isGroupOf]

end NormalForm

namespace Formula

/-! ## Normal forms -/

theorem normalize_of_lt (h : maxVariables < f.vocabulary.size) :
    f.normalize form = .error ⟨f.vocabulary.size, maxVariables⟩ := by
  rw [normalize, truthTable_of_lt h]
  rfl

/-- There are groups to join, whatever the formula. -/
theorem exists_joinAll?_groups (form : NormalForm) (f : Formula) :
    ∃ g, joinAll? form.outer (form.groups f.table) = some g := by
  obtain ⟨name, hName⟩ := Array.exists_mem_of_size_pos f.size_vocabulary_pos
  obtain ⟨g, hg, -⟩ :=
    (form.exists_mem_names_groups_iff f name).mpr (mem_vocabulary.mp hName)
  exact exists_joinAll?_eq_some hg

/-- A normal form is the join of the groups of the table. -/
theorem normalize_eq_ok_iff :
    f.normalize form = .ok g ↔ f.vocabulary.size ≤ maxVariables ∧
      joinAll? form.outer (form.groups f.table) = some g := by
  rcases Nat.lt_or_ge maxVariables f.vocabulary.size with h | h
  · rw [normalize_of_lt h]
    simp [h]
  · obtain ⟨g', hJoin⟩ := exists_joinAll?_groups form f
    have hNormalize : f.normalize form = .ok g' := by
      rw [normalize, truthTable_of_le h]
      -- the formula itself stands by for a join that is missing
      show Except.ok ((joinAll? form.outer (form.groups f.table)).getD f) = _
      rw [hJoin, Option.getD_some]
    rw [hNormalize, hJoin, Except.ok.injEq, Option.some.injEq]
    exact ⟨fun hEq => ⟨h, hEq⟩, And.right⟩

theorem exists_normalize_eq_ok (form : NormalForm) (h : f.vocabulary.size ≤ maxVariables) :
    ∃ g, f.normalize form = .ok g := by
  obtain ⟨g, hJoin⟩ := exists_joinAll?_groups form f
  exact ⟨g, normalize_eq_ok_iff.mpr ⟨h, hJoin⟩⟩

/-- A normal form says what the formula says about the same variables. -/
theorem restates_of_normalize_eq_ok (h : f.normalize form = .ok g) : g.Restates f := by
  obtain ⟨-, hJoin⟩ := normalize_eq_ok_iff.mp h
  constructor
  · intro v
    have hValue : g.eval v = form.groupedValue ↔ f.eval v = form.groupedValue := by
      rw [eval_joinAll?_eq_iff form.absorbs_outer hJoin, form.exists_eval_groups_iff]
    -- of two values, having one at the same time is having the same
    have hBool : ∀ a b c : Bool, (a = c ↔ b = c) → a = b := by decide
    exact hBool _ _ _ hValue
  · intro name
    rw [names_joinAll? hJoin, List.mem_flatMap, form.exists_mem_names_groups_iff]

theorem isNormal_of_normalize_eq_ok (h : f.normalize form = .ok g) : g.isNormal form = true :=
  isNormal_joinAll? (fun _ hg => isNormal_of_isGroupOf (form.isGroupOf_groups hg))
    (normalize_eq_ok_iff.mp h).2

/-- **Normalizing restates in the form asked for.** With too many variables their number is the
answer. Otherwise the groups of the table have a join, tautologies and contradictions included,
and this is the answer. It has the shape of the form, the variables of the formula, and the value
of the formula under every valuation. -/
theorem normalize_restates (form : NormalForm) (f : Formula) :
    (maxVariables < f.names.toFinset.card →
      f.normalize form = .error ⟨f.names.toFinset.card, maxVariables⟩) ∧
    (f.names.toFinset.card ≤ maxVariables → ∃ t g, f.truthTable = .ok t ∧
      joinAll? form.outer (form.groups t) = some g ∧ f.normalize form = .ok g ∧
      g.isNormal form = true ∧ g.vocabulary = f.vocabulary ∧
      ∀ v : Valuation, g.eval v = f.eval v) := by
  rw [← size_vocabulary]
  refine ⟨normalize_of_lt, ?_⟩
  intro h
  obtain ⟨g, hNormalize⟩ := exists_normalize_eq_ok form h
  have hRestates := restates_of_normalize_eq_ok hNormalize
  exact ⟨f.table, g, truthTable_of_le h, (normalize_eq_ok_iff.mp hNormalize).2, hNormalize,
    isNormal_of_normalize_eq_ok hNormalize, hRestates.vocabulary_eq, hRestates.eval_eq⟩

/-- A tautology has trivial clauses only, and a formula with one variable too many is refused. -/
theorem normalize_restates_tautology :
    let f := join .implies (var "A") (join .or (var "B") (var "A"))
    let g := join .and (join .or (var "A") (notVar "A")) (join .or (var "B") (notVar "B"))
    f.names.toFinset.card ≤ maxVariables ∧ maxVariables < oversized.names.toFinset.card ∧
      f.normalize .cnf = .ok g ∧ g.isNormal .cnf = true ∧ g.vocabulary = f.vocabulary ∧
      (∀ v : Valuation, g.eval v = f.eval v) ∧ oversized.normalize .dnf = .error ⟨17, 16⟩ := by
  intro f g
  have hSize : f.names.toFinset.card ≤ maxVariables := by decide
  have hLarge : maxVariables < oversized.names.toFinset.card := by
    rw [card_names_oversized]
    decide
  obtain ⟨t, g', -, -, hNormalize, hShape, hNames, hEval⟩ := (normalize_restates .cnf f).2 hSize
  -- nothing refutes the formula, so each name gets a trivial group
  have hForm : f.normalize .cnf = .ok g := by cbv
  obtain rfl : g' = g := by
    rw [hNormalize, Except.ok.injEq] at hForm
    exact hForm
  have hRefused := (normalize_restates .dnf oversized).1 hLarge
  rw [card_names_oversized] at hRefused
  exact ⟨hSize, hLarge, hForm, hShape, hNames, hEval, hRefused⟩

end Formula

end Propositional
