import Mathlib.Data.Bool.Count
import Mathlib.Order.Bounds.Basic
import Propositional.Proofs.Tabulation

/-!
# Propositional — verdicts and tables

A table has the value on every row, and a verdict is found by a scan that stops in the middle.
The scan enters one number under each value and is settled when it has both, so the rows that
it leaves out could not have changed anything. Said without the stop: under each value stands
the first row with the value, if there is one (`Verdict.first_scan`).

Rows come in the order of their numbers, which makes the first row with a value the one with
the least number (`Formula.isFirst_firstRows`). That determines a verdict by the table alone,
so every question that both can answer has one answer.

Main result: `Formula.verdict_agrees_with_table`.
-/

namespace Propositional

variable {f : Formula} {t : TruthTable} {value : Bool} {found : Option Nat}

/-! ## Scanning -/

namespace Verdict

/-- The number that is entered under a value. -/
def first (p : Verdict) : Bool → Option Nat
  | true => p.satisfying
  | false => p.falsifying

/-- A verdict is settled when a row of either value has been found. -/
theorem isSettled_iff {p : Verdict} :
    p.isSettled = true ↔ ∀ value, (p.first value).isSome = true := by
  simp [isSettled, isSatisfiable, isFalsifiable, first, and_comm]

/-- Entering a row changes nothing under the other value, and nothing that is entered already. -/
theorem first_enter (p : Verdict) (value asked : Bool) (index : Nat) :
    (p.enter value index).first asked =
      if value = asked then (p.first asked).or (some index) else p.first asked := by
  cases value <;> cases asked <;> simp [enter, first]

/-- A scan enters under each value the first row that has it, unless one is entered already. -/
theorem first_scan (value : Assignment → Bool) (asked : Bool) (rows : List Assignment)
    (p : Verdict) : (scan value rows p).first asked =
      (p.first asked).or ((rows.find? fun row => value row == asked).map Assignment.index) := by
  induction rows generalizing p with
  | nil => simp [scan]
  | cons row rows ih =>
    have hEnter := p.first_enter (value row) asked row.index
    rw [scan]
    by_cases hRow : value row = asked
    · -- this row is the first one, whether or not the scan goes on
      rw [if_pos hRow] at hEnter
      rw [List.find?_cons_of_pos (by simp [hRow])]
      show _ = (p.first asked).or (some row.index)
      split
      next => exact hEnter
      next => rw [ih, hEnter, Option.or_assoc, Option.some_or]
    · rw [if_neg hRow] at hEnter
      rw [List.find?_cons_of_neg (by simp [hRow])]
      split
      next hSettled =>
        -- the scan stops with a number under the value that is asked for, too
        have hSome := isSettled_iff.mp hSettled asked
        rw [hEnter] at hSome ⊢
        exact (Option.or_of_isSome hSome).symm
      next => rw [ih, hEnter]

end Verdict

/-! ## First rows -/

/-- The head of an increasing list is its least member. -/
theorem head?_eq_some_iff_isLeast {numbers : List Nat} (hOrd : numbers.Pairwise (· < ·)) {i : Nat} :
    numbers.head? = some i ↔ IsLeast {j | j ∈ numbers} i := by
  have hLeast : ∀ {k}, numbers.head? = some k → IsLeast {j | j ∈ numbers} k := by
    intro k hHead
    obtain ⟨rest, rfl⟩ := List.head?_eq_some_iff.mp hHead
    refine ⟨List.mem_cons_self .., fun j hMem => ?_⟩
    rcases List.mem_cons.mp hMem with rfl | hRest
    · exact Nat.le_refl j
    · exact Nat.le_of_lt (List.rel_of_pairwise_cons hOrd hRest)
  refine ⟨hLeast, fun h => ?_⟩
  -- where there is a member there is a head, and only one member is least
  have hHead := List.head?_eq_some_head (List.ne_nil_of_mem h.1)
  rw [hHead, (hLeast hHead).unique h]

/-- What is found is the least number at which a table has a value, and nothing if the table does
not have the value. -/
structure TruthTable.IsFirst (t : TruthTable) (value : Bool) (found : Option Nat) : Prop where
  eq_some_iff : ∀ i, found = some i ↔ IsLeast {j | t.values[j]? = some value} i
  eq_none_iff : found = none ↔ value ∉ t.values

/-- Nothing is found under a value if and only if the table has the other value everywhere. -/
theorem TruthTable.IsFirst.isNone_eq (h : t.IsFirst value found) :
    found.isNone = t.values.all (· == !value) := by
  rw [Bool.eq_iff_iff, Option.isNone_iff_eq_none, h.eq_none_iff, List.all_eq_true]
  -- of two values, one that is not the first is the other
  constructor
  · intro hNone other hMem
    rw [beq_iff_eq, Bool.eq_not]
    rintro rfl
    exact hNone hMem
  · intro hAll hMem
    have hOther := hAll value hMem
    simp at hOther

namespace Formula

/-- The verdict on a formula, however many variables there are. -/
def firstRows (f : Formula) : Verdict :=
  Verdict.scan (fun row => f.eval row.value) (Assignment.rows f.vocabulary) ⟨none, none⟩

theorem verdict_of_le (h : f.vocabulary.size ≤ maxVariables) : f.verdict = .ok f.firstRows := by
  rw [verdict, enumerable_of_le h]
  rfl

theorem verdict_of_lt (h : maxVariables < f.vocabulary.size) :
    f.verdict = .error ⟨f.vocabulary.size, maxVariables⟩ := by
  rw [verdict, enumerable_of_lt h]
  rfl

/-- A verdict enters the number of the first row that the table lists under the value. -/
theorem first_firstRows (f : Formula) (value : Bool) :
    f.firstRows.first value = (f.table.rowsWith value).head?.map Assignment.index := by
  have hEmpty : (⟨none, none⟩ : Verdict).first value = none := by cases value <;> rfl
  rw [firstRows, Verdict.first_scan, hEmpty, Option.none_or, rowsWith_table, List.head?_filter]

/-- The numbers of the rows that are listed under a value are those at which the value stands. -/
theorem mem_map_index_rowsWith {i : Nat} :
    i ∈ (f.table.rowsWith value).map Assignment.index ↔ f.table.values[i]? = some value := by
  constructor
  · intro h
    obtain ⟨⟨names, index⟩, hRow, rfl⟩ := List.mem_map.mp h
    obtain ⟨hMem, hEval⟩ := mem_rowsWith_table.mp hRow
    obtain ⟨rfl, hLess⟩ := Assignment.mem_rows.mp hMem
    rw [getElem?_values_table hLess, hEval]
  · intro h
    -- the number is within the table, so there is a row of that number
    have hLess : i < 2 ^ f.vocabulary.size := by
      rw [← length_values_table]
      exact (List.getElem?_eq_some_iff.mp h).1
    rw [getElem?_values_table hLess, Option.some.injEq] at h
    have hRow : ⟨f.vocabulary, i⟩ ∈ f.table.rowsWith value :=
      mem_rowsWith_table.mpr ⟨Assignment.mem_rows.mpr ⟨rfl, hLess⟩, h⟩
    exact List.mem_map.mpr ⟨_, hRow, rfl⟩

/-- A verdict enters the first rows of the table. -/
theorem isFirst_firstRows (f : Formula) (value : Bool) :
    f.table.IsFirst value (f.firstRows.first value) := by
  -- the rows of a value are in the order of their numbers, so the head is the least
  have hOrd : ((f.table.rowsWith value).map Assignment.index).Pairwise (· < ·) := by
    rw [rowsWith_table]
    exact List.pairwise_map.mpr (Assignment.pairwise_of_sublist List.filter_sublist)
  rw [first_firstRows, ← List.head?_map]
  constructor
  · intro i
    rw [head?_eq_some_iff_isLeast hOrd]
    simp only [mem_map_index_rowsWith]
  · rw [List.head?_eq_none_iff, List.eq_nil_iff_forall_not_mem, List.mem_iff_getElem?]
    simp only [mem_map_index_rowsWith, not_exists]

/-- A table counts the rows that it lists. -/
theorem length_rowsWith_table (f : Formula) (value : Bool) :
    (f.table.rowsWith value).length = f.table.values.count value := by
  rw [rowsWith_table, ← List.countP_eq_length_filter, table, List.count, List.countP_map]
  rfl

/-- What a verdict did not find is nowhere in the table. -/
theorem isTautology_firstRows (f : Formula) : f.firstRows.isTautology = f.table.isTautology := by
  show (!f.firstRows.falsifying.isSome) = f.table.values.all (· == !false)
  rw [Option.not_isSome]
  exact (f.isFirst_firstRows false).isNone_eq

theorem isContradiction_firstRows (f : Formula) :
    f.firstRows.isContradiction = f.table.isContradiction := by
  show (!f.firstRows.satisfying.isSome) = f.table.values.all (· == !true)
  rw [Option.not_isSome]
  exact (f.isFirst_firstRows true).isNone_eq

/-! ## Verdict and table together -/

/-- **A verdict agrees with the table.** Both are refused for the same formulas, those with too many
variables, and for their number. Otherwise a verdict has under each value the least number at
which the table has the value, or nothing if the table does not have it. So both say the same
about tautologies and contradictions, and what a verdict has is the number of the first row that
the table lists. There are as many satisfying rows as the table counts, and together with the
falsifying ones they are all. -/
theorem verdict_agrees_with_table (f : Formula) :
    (maxVariables < f.names.toFinset.card →
      f.verdict = .error ⟨f.names.toFinset.card, maxVariables⟩ ∧
      f.truthTable = .error ⟨f.names.toFinset.card, maxVariables⟩) ∧
    (f.names.toFinset.card ≤ maxVariables →
      ∃ p t, f.verdict = .ok p ∧ f.truthTable = .ok t ∧
        t.IsFirst true p.satisfying ∧ t.IsFirst false p.falsifying ∧
        p.isTautology = t.isTautology ∧ p.isContradiction = t.isContradiction ∧
        p.satisfying = (t.rowsWith true).head?.map Assignment.index ∧
        p.falsifying = (t.rowsWith false).head?.map Assignment.index ∧
        t.satisfyingCount = (t.rowsWith true).length ∧
        (t.rowsWith true).length + (t.rowsWith false).length = 2 ^ f.names.toFinset.card) := by
  rw [← size_vocabulary]
  refine ⟨fun h => ⟨verdict_of_lt h, truthTable_of_lt h⟩, fun h => ?_⟩
  refine ⟨f.firstRows, f.table, verdict_of_le h, truthTable_of_le h, f.isFirst_firstRows true,
    f.isFirst_firstRows false, f.isTautology_firstRows, f.isContradiction_firstRows,
    f.first_firstRows true, f.first_firstRows false, (f.length_rowsWith_table true).symm, ?_⟩
  -- each row has one of the two values
  rw [length_rowsWith_table, length_rowsWith_table, List.count_true_add_count_false,
    length_values_table]

/-- A conjunction has its only satisfying row at the end, a contradiction has none, and seventeen
variables are refused. -/
theorem verdict_agrees_with_table_and :
    let f := join .and (var "A") (var "B")
    let g := join .and (var "A") (notVar "A")
    (f.names.toFinset.card ≤ maxVariables ∧ f.verdict = .ok ⟨some 3, some 0⟩ ∧
      ∃ t, f.truthTable = .ok t ∧ t.IsFirst true (some 3) ∧ (t.rowsWith true).length = 1 ∧
        (t.rowsWith false).length = 3) ∧
    (g.names.toFinset.card ≤ maxVariables ∧
      ∃ t, g.truthTable = .ok t ∧ t.IsFirst true none ∧ t.isContradiction = true) ∧
    maxVariables < oversized.names.toFinset.card ∧ oversized.verdict = .error ⟨17, 16⟩ := by
  intro f g
  have hf : f.names.toFinset.card ≤ maxVariables := by decide
  have hg : g.names.toFinset.card ≤ maxVariables := by decide
  have hLarge : maxVariables < oversized.names.toFinset.card := by
    rw [card_names_oversized]
    decide
  refine ⟨⟨hf, ?_⟩, ⟨hg, ?_⟩, hLarge, ?_⟩
  · obtain ⟨p, t, hVerdict, hTable, hTrue, -, -, -, -, -, hCount, hAll⟩ :=
      (verdict_agrees_with_table f).2 hf
    have hScan : f.verdict = .ok ⟨some 3, some 0⟩ := by cbv
    obtain rfl : p = ⟨some 3, some 0⟩ := Except.ok.inj (hVerdict.symm.trans hScan)
    have hValues : f.truthTable = .ok ⟨#["A", "B"], [false, false, false, true]⟩ := by cbv
    obtain rfl : t = ⟨#["A", "B"], [false, false, false, true]⟩ :=
      Except.ok.inj (hTable.symm.trans hValues)
    -- the single row found satisfies, and the other three of four do not
    have hOne : (TruthTable.rowsWith _ true).length = 1 := hCount.symm
    rw [hOne] at hAll
    have hFour : 2 ^ f.names.toFinset.card = 4 := by decide
    exact ⟨hScan, _, hValues, hTrue, hOne, by omega⟩
  · obtain ⟨p, t, hVerdict, hTable, hTrue, -, -, hContradiction, -⟩ :=
      (verdict_agrees_with_table g).2 hg
    have hScan : g.verdict = .ok ⟨none, some 0⟩ := by cbv
    obtain rfl : p = ⟨none, some 0⟩ := Except.ok.inj (hVerdict.symm.trans hScan)
    exact ⟨t, hTable, hTrue, hContradiction.symm⟩
  · have hRefused := ((verdict_agrees_with_table oversized).1 hLarge).1
    rwa [card_names_oversized] at hRefused

end Formula

end Propositional
