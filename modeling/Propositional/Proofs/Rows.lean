import Mathlib.Algebra.Group.Nat.Defs
import Mathlib.Data.Finset.Card
import Propositional.Assignment

/-!
# Propositional — rows stand for valuations

Rows are numbers, finitely many for a list of names; valuations are functions on all
names. What makes it enough to visit the rows is that each valuation agrees with one of
them on the listed names, the row that it is encoded as (`Assignment.value_encode`), so a
property that looks at listed names only holds of all rows if and only if it holds of all
valuations (`Assignment.forall_mem_rows_iff`). Everything that enumerates stands on this.

That a row is read by halving is dealt with once: over ordered names, a row reads as the
valuation that its bits say (`Assignment.readsAs_value`).
-/

namespace Propositional

variable {names : Array String} {row : Assignment} {f : Formula} {v : Valuation} {name : String}

/-! ## Ordered names -/

theorem Names.Ordered.nodup (hOrd : Names.Ordered names) : names.toList.Nodup := by
  refine List.Pairwise.imp ?_ hOrd
  rintro a b hLess rfl
  exact String.lt_irrefl a hLess

/-- Ordering a list of names keeps each name once, and no more than once. -/
theorem Names.size_ofList (list : List String) :
    (Names.ofList list).size = list.toFinset.card := by
  have hMem : (Names.ofList list).toList.toFinset = list.toFinset := by
    ext name
    rw [List.mem_toFinset, List.mem_toFinset, Array.mem_toList_iff, Names.mem_ofList]
  rw [← hMem, List.toFinset_card_of_nodup (Names.ordered_ofList list).nodup, Array.length_toList]

/-- The variables are the different names that occur. -/
theorem Formula.size_vocabulary (f : Formula) : f.vocabulary.size = f.names.toFinset.card :=
  Names.size_ofList f.names

/-- A formula has a leaf, so it has a variable. -/
theorem Formula.size_vocabulary_pos (f : Formula) : 0 < f.vocabulary.size := by
  have hLeaf : 0 < f.names.length := f.length_names ▸ f.leafCount_pos
  have hMem : f.names[0] ∈ f.vocabulary := mem_vocabulary.mpr (List.getElem_mem hLeaf)
  exact Array.size_pos_of_mem hMem

namespace Assignment

/-! ## The valuation that a row stands for -/

/-- A valuation says what a row says: each listed name has the bit at its place, and a name that
is not listed is false. -/
structure ReadsAs (row : Assignment) (v : Valuation) : Prop where
  listed : ∀ (i : Nat) (h : i < row.names.size), v row.names[i] = row.index.testBit i
  unlisted : ∀ name, name ∉ row.names → v name = false

/-- The search that reads a row finds every listed name and no other. -/
theorem readsAs_value (hOrd : Names.Ordered row.names) : row.ReadsAs row.value := by
  constructor
  · intro i h
    -- a listed name is found at its own place
    have hPosition : Names.position? row.names row.names[i] = some i :=
      (Names.position?_eq_some_iff hOrd).mpr ⟨h, rfl⟩
    simp only [value, hPosition, bit]
  · intro name hMem
    have hPosition : Names.position? row.names name = none := by
      rw [Option.eq_none_iff_forall_ne_some]
      intro i hSome
      obtain ⟨h, rfl⟩ := (Names.position?_eq_some_iff hOrd).mp hSome
      exact hMem (Array.getElem_mem h)
    simp only [value, hPosition]

/-! ## The pairs of a row -/

theorem map_fst_pairs (row : Assignment) : row.pairs.map Prod.fst = row.names.toList := by
  rw [pairs, List.map_map]
  exact List.zipIdx_map_fst 0 _

/-- A row pairs each of its names with the bit at its place. -/
theorem mem_pairs {pair : String × Bool} :
    pair ∈ row.pairs ↔
      ∃ (i : Nat) (h : i < row.names.size), pair = (row.names[i], row.index.testBit i) := by
  simp only [pairs, bit, List.mem_map, Prod.exists, List.mk_mem_zipIdx_iff_getElem?,
    Array.getElem?_toList, Array.getElem?_eq_some_iff]
  grind

/-! ## The list of rows -/

/-- The rows over some names are those with a number below the power of two. -/
theorem mem_rows : row ∈ rows names ↔ row.names = names ∧ row.index < 2 ^ names.size := by
  obtain ⟨names', index⟩ := row
  simp only [rows, Nat.one_shiftLeft, List.mem_map, List.mem_range, Assignment.mk.injEq]
  grind

theorem map_index_rows (names : Array String) :
    (rows names).map index = List.range (2 ^ names.size) := by
  rw [rows, List.map_map, Nat.one_shiftLeft]
  exact List.map_id _

theorem length_rows (names : Array String) : (rows names).length = 2 ^ names.size := by
  rw [← List.length_map (f := index), map_index_rows, List.length_range]

/-- Some rows, taken in the order of the rows, have increasing numbers. -/
theorem pairwise_of_sublist {part : List Assignment} (h : part.Sublist (rows names)) :
    part.Pairwise fun row row' => row.index < row'.index := by
  have hAll : ((rows names).map index).Pairwise (· < ·) := by
    rw [map_index_rows]
    exact List.pairwise_lt_range
  exact (List.pairwise_map.mp hAll).sublist h

/-! ## The row that a valuation is encoded as -/

theorem encode_mem_rows (names : Array String) (v : Valuation) :
    ⟨names, encode names.toList v⟩ ∈ rows names := by
  have hLess := encode_lt names.toList v
  rw [Nat.one_shiftLeft, Array.length_toList] at hLess
  exact mem_rows.mpr ⟨rfl, hLess⟩

/-- A valuation is encoded as a row if and only if it has the bits of the row at the listed
names. -/
theorem encode_eq_index_iff (hRow : row ∈ rows names) :
    encode names.toList v = row.index ↔
      ∀ (i : Nat) (h : i < names.size), v names[i] = row.index.testBit i := by
  obtain ⟨-, hIndex⟩ := mem_rows.mp hRow
  constructor
  · intro hEq i h
    rw [← hEq, testBit_encode names.toList v i (by simpa using h), Array.getElem_toList]
  · intro hBits
    apply Nat.eq_of_testBit_eq
    intro i
    by_cases h : i < names.size
    · rw [testBit_encode names.toList v i (by simpa using h), Array.getElem_toList, hBits i h]
    · -- past the listed names both numbers are too small to have a bit
      have hPow : 2 ^ names.size ≤ 2 ^ i := Nat.pow_le_pow_right (by decide) (by omega)
      have hCode := (mem_rows.mp (encode_mem_rows names v)).2
      rw [Nat.testBit_lt_two_pow (hCode.trans_le hPow),
        Nat.testBit_lt_two_pow (hIndex.trans_le hPow)]

/-- Reading what was encoded gives the listed names their values back. -/
theorem value_encode (hOrd : Names.Ordered names) (v : Valuation) (hMem : name ∈ names) :
    (⟨names, encode names.toList v⟩ : Assignment).value name = v name := by
  obtain ⟨i, h, rfl⟩ := Array.mem_iff_getElem.mp hMem
  rw [(readsAs_value hOrd).listed i h]
  exact ((encode_eq_index_iff (encode_mem_rows names v)).mp rfl i h).symm

/-! ## All rows and all valuations -/

/-- **Rows are enough.** A property that depends on the listed names only holds of every row if and
only if it holds of every valuation. -/
theorem forall_mem_rows_iff {p : Valuation → Prop} (hOrd : Names.Ordered names)
    (hCongr : ∀ v w : Valuation, (∀ name ∈ names, v name = w name) → p v → p w) :
    (∀ row ∈ rows names, p row.value) ↔ ∀ v, p v := by
  constructor
  · intro hRows v
    -- the row that stands in for the valuation is the one it is encoded as
    have hRow := hRows _ (encode_mem_rows names v)
    exact hCongr _ v (fun name hMem => value_encode hOrd v hMem) hRow
  · intro hAll row _
    exact hAll row.value

end Assignment

/-- A formula over the listed names has on the row of a valuation the value that it has under the
valuation. -/
theorem Formula.eval_encode (hOrd : Names.Ordered names) (hNames : ∀ name ∈ f.names, name ∈ names)
    (v : Valuation) :
    f.eval (⟨names, Assignment.encode names.toList v⟩ : Assignment).value = f.eval v :=
  eval_congr fun name hName => Assignment.value_encode hOrd v (hNames name hName)

end Propositional
