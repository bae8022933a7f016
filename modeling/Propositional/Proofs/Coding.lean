import Propositional.Proofs.Rows

/-!
# Propositional — rows and valuations code each other

Reading a row and encoding a valuation are inverse to each other as far as the listed names
reach. A number comes back without the bits past the last name (`Assignment.encode_value`), and
a valuation comes back with the names that are not listed made false. So the rows, taken in
the order of their numbers, are the valuations of the listed names, each of them once.

Numbers are unbounded here. With at most 64 names this makes no difference: a 64-bit word in
which the bits are set one after another is the number of the valuation
(`Assignment.toNat_encodeWord`), for every bit that is set lies within the word.

Main result: `Assignment.encode_inverts_value`.
-/

namespace Propositional.Assignment

variable {names : Array String} {row : Assignment} {v : Valuation} {name : String}

/-! ## From numbers to numbers -/

/-- A row that is read and encoded again has its number without the bits that were ignored. -/
theorem encode_value (hOrd : Names.Ordered names) (index : Nat) :
    encode names.toList (⟨names, index⟩ : Assignment).value = index % 2 ^ names.size := by
  -- the remainder is the number of a row
  have hRow : ⟨names, index % 2 ^ names.size⟩ ∈ rows names :=
    mem_rows.mpr ⟨rfl, Nat.mod_lt _ (Nat.two_pow_pos names.size)⟩
  apply (encode_eq_index_iff hRow).mpr
  intro i h
  have hReads : (⟨names, index⟩ : Assignment).ReadsAs (⟨names, index⟩ : Assignment).value :=
    readsAs_value hOrd
  show (⟨names, index⟩ : Assignment).value names[i] = (index % 2 ^ names.size).testBit i
  -- the bit of a listed name is one of those that count
  rw [hReads.listed i h, Nat.testBit_mod_two_pow, decide_eq_true h, Bool.true_and]

/-! ## From rows to valuations -/

/-- A row agrees with a valuation on the listed names if and only if the valuation is encoded as
the row. -/
theorem agrees_iff (hOrd : Names.Ordered names) (hRow : row ∈ rows names) :
    (∀ name ∈ names, row.value name = v name) ↔ encode names.toList v = row.index := by
  obtain ⟨rfl, -⟩ := mem_rows.mp hRow
  rw [encode_eq_index_iff hRow]
  constructor
  · intro hAgrees i h
    rw [← hAgrees _ (Array.getElem_mem h), (readsAs_value hOrd).listed i h]
  · intro hBits name hMem
    obtain ⟨i, h, rfl⟩ := Array.mem_iff_getElem.mp hMem
    rw [hBits i h, (readsAs_value hOrd).listed i h]

/-- What a row says is encoded as the row. -/
theorem encode_value_of_mem (hOrd : Names.Ordered names) (hRow : row ∈ rows names) :
    encode names.toList row.value = row.index :=
  (agrees_iff hOrd hRow).mp fun _ _ => rfl

/-! ## Encoding in a word -/

/-- Sets the bits at the places of a list, one after another. -/
def setBits (places : List (String × Nat)) (word : UInt64) : UInt64 :=
  places.foldl (fun word place => word ||| 1 <<< UInt64.ofNat place.2) word

/-- The number of a valuation put together in a 64-bit word: the bits at the places of the true
names are set. -/
def encodeWord (names : List String) (v : Valuation) : UInt64 :=
  setBits (names.zipIdx.filter fun place => v place.1) 0

/-- Within the word a bit is not shifted out. -/
theorem toNat_one_shiftLeft {i : Nat} (h : i < 64) :
    ((1 : UInt64) <<< UInt64.ofNat i).toNat = 2 ^ i := by
  have hSize : i < UInt64.size := Nat.lt_trans h (by decide)
  have hPlace : (UInt64.ofNat i).toNat = i := UInt64.toNat_ofNat_of_lt hSize
  have hPow : 2 ^ i < 2 ^ 64 := Nat.pow_lt_pow_right (by decide) h
  rw [UInt64.toNat_shiftLeft, hPlace, Nat.mod_eq_of_lt h, UInt64.toNat_one, Nat.one_shiftLeft,
    Nat.mod_eq_of_lt hPow]

/-- Setting bits keeps those that are set and adds those at the places. -/
theorem testBit_setBits {places : List (String × Nat)} (h : ∀ place ∈ places, place.2 < 64)
    (word : UInt64) (i : Nat) : (setBits places word).toNat.testBit i = true ↔
      word.toNat.testBit i = true ∨ ∃ place ∈ places, place.2 = i := by
  induction places generalizing word with
  | nil => simp [setBits]
  | cons place places ih =>
    obtain ⟨hPlace, hPlaces⟩ := List.forall_mem_cons.mp h
    -- the place at the front sets its bit first, and the others never clear one
    have hStep : setBits (place :: places) word =
        setBits places (word ||| 1 <<< UInt64.ofNat place.2) := rfl
    rw [hStep, ih hPlaces, UInt64.toNat_or, toNat_one_shiftLeft hPlace, Nat.testBit_or,
      Nat.testBit_two_pow]
    simp [or_assoc]

/-- A word has room for 64 names. -/
theorem toNat_encodeWord {list : List String} (h : list.length ≤ 64) (v : Valuation) :
    (encodeWord list v).toNat = encode list v := by
  have hPlaces : ∀ place ∈ list.zipIdx.filter fun place => v place.1, place.2 < 64 := by
    intro place hMem
    have hLess := List.snd_lt_of_mem_zipIdx (List.mem_of_mem_filter hMem)
    omega
  apply Nat.eq_of_testBit_eq
  intro i
  rw [Bool.eq_iff_iff, encodeWord, testBit_setBits hPlaces]
  -- the places are those of the true names
  have hSet : (∃ place ∈ list.zipIdx.filter fun place => v place.1, place.2 = i) ↔
      ∃ h : i < list.length, v list[i] = true := by
    simp only [List.mem_filter, Prod.exists, List.mk_mem_zipIdx_iff_getElem?,
      List.getElem?_eq_some_iff]
    grind
  rw [hSet]
  by_cases hi : i < list.length
  · simp [hi, testBit_encode list v i hi]
  · have hCode := encode_lt list v
    have hPow : 2 ^ list.length ≤ 2 ^ i := Nat.pow_le_pow_right (by decide) (by omega)
    rw [Nat.one_shiftLeft] at hCode
    simp [hi, Nat.testBit_lt_two_pow (hCode.trans_le hPow)]

/-! ## Both ways -/

/-- **Rows and valuations code each other.** A number that is read and encoded again comes back
without the bits past the last name. A valuation is encoded below the number of rows, in a 64-bit
word if there are at most 64 names, and read again it has its values at the listed names and is
false at every other. The rows stand in the order of their numbers, as many as a word can count
if there are at most 63 names, and each valuation agrees with exactly one of them on the listed
names. -/
theorem encode_inverts_value (hOrd : Names.Ordered names) :
    (∀ index, encode names.toList (⟨names, index⟩ : Assignment).value = index % 2 ^ names.size) ∧
      (∀ v : Valuation, encode names.toList v < 2 ^ names.size ∧
        (names.size ≤ 64 → (encodeWord names.toList v).toNat = encode names.toList v) ∧
        (∀ name ∈ names, (⟨names, encode names.toList v⟩ : Assignment).value name = v name) ∧
        ∀ name, name ∉ names →
          (⟨names, encode names.toList v⟩ : Assignment).value name = false) ∧
      (rows names).map index = List.range (2 ^ names.size) ∧
      (names.size ≤ 63 → (rows names).length = ((1 : UInt64) <<< UInt64.ofNat names.size).toNat) ∧
      (∀ row ∈ rows names, row.names = names) ∧
      ∀ v : Valuation, ∃! row, row ∈ rows names ∧ ∀ name ∈ names, row.value name = v name := by
  refine ⟨encode_value hOrd, ?_, map_index_rows names, ?_, fun row h => (mem_rows.mp h).1, ?_⟩
  · intro v
    have hReads : (⟨names, encode names.toList v⟩ : Assignment).ReadsAs
        (⟨names, encode names.toList v⟩ : Assignment).value := readsAs_value hOrd
    refine ⟨(mem_rows.mp (encode_mem_rows names v)).2, ?_, ?_, hReads.unlisted⟩
    · intro hSize
      exact toNat_encodeWord (by simpa using hSize) v
    · intro name
      exact value_encode hOrd v
  · intro hSize
    rw [length_rows, toNat_one_shiftLeft (by omega)]
  · intro v
    have hRow := encode_mem_rows names v
    refine ⟨_, ⟨hRow, (agrees_iff hOrd hRow).mpr rfl⟩, ?_⟩
    -- a row that agrees has the names of the rows and the number of the valuation
    rintro ⟨names', index⟩ ⟨hOther, hAgrees⟩
    obtain ⟨rfl, -⟩ := mem_rows.mp hOther
    rw [(agrees_iff hOrd hOther).mp hAgrees]

/-- Of the largest word two bits are left, and a name that is not listed is forgotten. -/
theorem encode_inverts_value_stray :
    let names := #["A", "B"]
    let v : Valuation := fun name => name == "B" || name == "Z"
    Names.Ordered names ∧
      encode names.toList (⟨names, 2 ^ 64 - 1⟩ : Assignment).value = 3 ∧
      (encodeWord names.toList v).toNat = 2 ∧ v "Z" = true ∧
      (⟨names, 2⟩ : Assignment).value "Z" = false ∧
      ∃! row, row ∈ rows names ∧ ∀ name ∈ names, row.value name = v name := by
  intro names v
  have hOrd : Names.Ordered names := by
    unfold Names.Ordered
    decide
  obtain ⟨hNumber, hValuation, -, -, -, hRow⟩ := encode_inverts_value hOrd
  obtain ⟨-, hWord, -, hUnlisted⟩ := hValuation v
  have hCode : encode names.toList v = 2 := by decide
  -- a variable that is not among the names leaves no trace in the code
  have hStray : "Z" ∉ names := by simp [names]
  rw [hCode] at hWord hUnlisted
  exact ⟨hOrd, (hNumber (2 ^ 64 - 1)).trans (by decide), hWord (by decide), by decide,
    hUnlisted "Z" hStray, hRow v⟩

end Propositional.Assignment
