import Mathlib.Data.List.Permutation
import Propositional.Proofs.Rows
import Propositional.TruthTable

/-!
# Propositional — what a truth table says

A table is a list of values without names beside them, so it says something only together
with the way rows are numbered. `Formula.truthTable_tells_values` puts the three together:
the value under a valuation stands at the number that the valuation is encoded as, and what
stands at a number is the value under the valuation with these bits.

Nothing but the variables and the values decides a table (`Formula.table_eq_iff`): formulas
over the same variables have the same table if and only if they are equivalent.
-/

namespace Propositional

variable {names : Array String} {f g : Formula}

/-! ## The limit -/

theorem enumerable_of_le (h : names.size ≤ maxVariables) : enumerable names = .ok names :=
  if_neg (Nat.not_lt.mpr h)

/-- More names than the limit are refused, and the error says how many there were. -/
theorem enumerable_of_lt (h : maxVariables < names.size) :
    enumerable names = .error ⟨names.size, maxVariables⟩ :=
  if_pos h

namespace Formula

/-- The table of a formula, however many variables there are. -/
def table (f : Formula) : TruthTable :=
  ⟨f.vocabulary, (Assignment.rows f.vocabulary).map fun row => f.eval row.value⟩

@[simp]
theorem names_table (f : Formula) : f.table.names = f.vocabulary := rfl

theorem truthTable_of_le (h : f.vocabulary.size ≤ maxVariables) : f.truthTable = .ok f.table := by
  rw [truthTable, enumerable_of_le h]
  rfl

theorem truthTable_of_lt (h : maxVariables < f.vocabulary.size) :
    f.truthTable = .error ⟨f.vocabulary.size, maxVariables⟩ := by
  rw [truthTable, enumerable_of_lt h]
  rfl

/-- A conjunction of seventeen variables, one more than the limit. -/
def oversized : Formula :=
  ("bcdefghijklmnopq".toList.map fun c => var (String.singleton c)).foldl (join .and) (var "a")

theorem card_names_oversized : oversized.names.toFinset.card = 17 := by decide

/-! ## The values -/

theorem length_values_table (f : Formula) : f.table.values.length = 2 ^ f.vocabulary.size := by
  rw [table, List.length_map, Assignment.length_rows]

/-- A row stands at its number. -/
theorem getElem?_values_table {i : Nat} (h : i < 2 ^ f.vocabulary.size) :
    f.table.values[i]? = some (f.eval (⟨f.vocabulary, i⟩ : Assignment).value) := by
  simp [table, Assignment.rows, Nat.one_shiftLeft, h]

/-- The value under a valuation stands at the number of its row. -/
theorem getElem?_values_table_encode (f : Formula) (v : Valuation) :
    f.table.values[Assignment.encode f.vocabulary.toList v]? = some (f.eval v) := by
  obtain ⟨-, hLess⟩ := Assignment.mem_rows.mp (Assignment.encode_mem_rows f.vocabulary v)
  rw [getElem?_values_table hLess, eval_encode f.ordered_vocabulary fun _ => mem_vocabulary.mpr]

/-- The rows of a value are those where the formula has it. -/
theorem rowsWith_table (f : Formula) (value : Bool) :
    f.table.rowsWith value =
      (Assignment.rows f.vocabulary).filter fun row => f.eval row.value == value := by
  -- each row stands beside the value that the formula has on it
  have hRows : f.table.rows =
      (Assignment.rows f.vocabulary).map fun row => (row, f.eval row.value) :=
    List.map_prod_left_eq_zip.symm
  rw [TruthTable.rowsWith, hRows, List.filter_map, List.map_map]
  exact List.map_id _

theorem mem_rowsWith_table {row : Assignment} {value : Bool} :
    row ∈ f.table.rowsWith value ↔
      row ∈ Assignment.rows f.vocabulary ∧ f.eval row.value = value := by
  rw [rowsWith_table, List.mem_filter, beq_iff_eq]

/-- Formulas with the same variables have the same table if and only if no valuation tells them
apart. -/
theorem table_eq_iff : f.table = g.table ↔ f.vocabulary = g.vocabulary ∧ f.Equivalent g := by
  constructor
  · intro hTable
    have hNames : f.vocabulary = g.vocabulary := congrArg TruthTable.names hTable
    refine ⟨hNames, fun v => ?_⟩
    -- both values stand at the number of the valuation
    apply Option.some.inj
    rw [← getElem?_values_table_encode, ← getElem?_values_table_encode, hTable, hNames]
  · rintro ⟨hNames, hEquivalent⟩
    have hEval : (fun row : Assignment => f.eval row.value) = fun row => g.eval row.value := by
      funext row
      exact hEquivalent row.value
    rw [table, table, hNames, hEval]

/-- **A truth table tells the value under every valuation.** Up to the limit there is a table. It
has the variables of the formula in order and a value for each of their rows. The value under a
valuation, whatever other names this knows, is the one at the number of the valuation; and the
value at a number is the one under the valuation that gives the `j`-th variable the `j`-th bit. -/
theorem truthTable_tells_values (h : f.names.toFinset.card ≤ maxVariables) :
    ∃ t, f.truthTable = .ok t ∧ t.names = f.vocabulary ∧
      t.values.length = 2 ^ f.names.toFinset.card ∧
      (∀ v : Valuation, t.values[Assignment.encode t.names.toList v]? = some (f.eval v)) ∧
      (∀ i < 2 ^ f.names.toFinset.card, ∃ v : Valuation,
        (⟨t.names, i⟩ : Assignment).ReadsAs v ∧ t.values[i]? = some (f.eval v)) := by
  rw [← size_vocabulary] at h ⊢
  refine ⟨f.table, truthTable_of_le h, rfl, f.length_values_table, ?_, ?_⟩
  · exact f.getElem?_values_table_encode
  -- the valuation that the row itself stands for
  · intro i hi
    exact ⟨_, Assignment.readsAs_value f.ordered_vocabulary, getElem?_values_table hi⟩

/-- Variables are numbered in their order and not as they occur, and a name that does not occur
makes no difference. -/
theorem truthTable_tells_values_implies :
    let f := join .implies (var "B") (notVar "A")
    let v : Valuation := fun name => name == "B" || name == "Z"
    f.names.toFinset.card ≤ maxVariables ∧ ∃ t, f.truthTable = .ok t ∧ t.names = #["A", "B"] ∧
      t.values.length = 4 ∧ t.values[2]? = some (f.eval v) ∧ f.eval v = true := by
  intro f v
  have hSize : f.names.toFinset.card ≤ maxVariables := by decide
  have hNames : f.vocabulary = #["A", "B"] := by cbv
  obtain ⟨t, hTable, hVocabulary, hLength, hEval, -⟩ := truthTable_tells_values hSize
  -- `B` is the second name, and `Z` is none
  have hEncode : Assignment.encode t.names.toList v = 2 := by
    rw [hVocabulary, hNames]
    decide
  rw [hNames] at hVocabulary
  exact ⟨hSize, t, hTable, hVocabulary, hLength, hEncode ▸ hEval v, by decide⟩

end Formula

end Propositional
