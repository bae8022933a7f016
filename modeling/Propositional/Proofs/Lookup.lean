import Mathlib.Algebra.Group.Nat.Defs
import Propositional.Proofs.Tabulation
import Propositional.Comparison
import Propositional.NormalForm

/-!
# Propositional — every name is found

A row is read by halving, and a name that the search misses is false without a word. So all
that enumerates rows stands on two conditions that nothing reports when they fail: that the
names of a row are in order, each once, and that the evaluator asks for none but these.

Here they are reported. Making a row over names that are not in order, and asking a row for a
name that it does not list, are errors (`LookupError`), and everything that visits rows is
written a second time with these checks: `Formula.truthTable?`, `Formula.verdict?`,
`Formula.normalize?`, `allEquivalent?`, `allDifferent?`. The order is checked between
neighbours, as it is cheapest to check. No check ever fails, so the answers are those of the
unchecked versions.

The reason is the same everywhere. The names come from `Names.ofList`, which orders any list,
and the evaluator asks for the names at the leaves, which are on that list
(`jointVocabulary_lists`).

Main result: `variables_ordered_and_found`.
-/

namespace Propositional

variable {names : Array String} {f first : Formula} {fs others : List Formula} {name : String}

/-! ## The order of names -/

/-- The numbers of the characters of a name. -/
def codePoints (name : String) : List Nat := name.toList.map Char.toNat

/-- Names are compared by their code points, the first ones first. -/
theorem codePoints_lt {a b : String} (h : a < b) : codePoints a < codePoints b :=
  List.map_lt (fun _ _ => id) (String.lt_iff.mp h)

/-- The names of a formula are those that its literals carry. -/
theorem Formula.mem_names_iff :
    name ∈ f.names ↔ ∃ negated, Subformula (.literal name negated) f := by
  -- a name is on a leaf, which is where the recursion ends
  induction f with
  | literal name' negated =>
    rw [names_literal, List.mem_singleton]
    constructor
    · rintro rfl
      exact ⟨negated, .refl⟩
    · rintro ⟨_, ⟨⟩⟩
      rfl
  | binary op a b negated iha ihb =>
    rw [names_binary, List.mem_append, iha, ihb]
    constructor
    · rintro (⟨mark, h⟩ | ⟨mark, h⟩)
      · exact ⟨mark, .left h⟩
      · exact ⟨mark, .right h⟩
    · rintro ⟨mark, h⟩
      cases h with
      | left h => exact .inl ⟨mark, h⟩
      | right h => exact .inr ⟨mark, h⟩

/-- The vocabulary of a formula is that of a list with nothing else in it. -/
theorem Formula.vocabulary_eq_jointVocabulary (f : Formula) :
    f.vocabulary = jointVocabulary [f] := by
  rw [vocabulary, jointVocabulary, List.flatMap_singleton]

/-! ## Rows that are checked -/

/-- Why a row cannot be made, or cannot be asked. -/
inductive LookupError where
  /-- Two neighbours among the names are not in order. -/
  | unordered
  /-- The name is not listed. -/
  | unlisted (name : String)

namespace Assignment

/-- A row, if its names are in order. -/
def make? (names : Array String) (index : Nat) : Except LookupError Assignment :=
  if names.toList.IsChain (· < ·) then .ok ⟨names, index⟩ else .error .unordered

/-- Every row, in the order of the numbers. -/
def rows? (names : Array String) : Except LookupError (List Assignment) :=
  (List.range (1 <<< names.size)).mapM (make? names)

/-- The value of a name, if it is listed. -/
def value? (row : Assignment) (name : String) : Except LookupError Bool :=
  match Names.position? row.names name with
  | some i => .ok (row.bit i)
  | none => .error (.unlisted name)

end Assignment

/-- The truth value on a row, if the names that are asked for are listed. -/
def Formula.eval? (row : Assignment) : Formula → Except LookupError Bool
  | literal name negated => do return (← row.value? name) ^^ negated
  | binary op left right negated => do
    return op.apply (← left.eval? row) (← right.eval? row) ^^ negated

/-- A step that fails on no member fails on no list. -/
theorem mapM_eq_ok {α β ε : Type} {step : α → Except ε β} {result : α → β} {xs : List α}
    (h : ∀ x ∈ xs, step x = .ok (result x)) : xs.mapM step = .ok (xs.map result) := by
  induction xs with
  | nil => rfl
  | cons x xs ih =>
    obtain ⟨hx, hxs⟩ := List.forall_mem_cons.mp h
    rw [List.mapM_cons, hx, ih hxs]
    rfl

theorem Assignment.rows?_eq (hOrd : Names.Ordered names) : rows? names = .ok (rows names) := by
  have hChain : names.toList.IsChain (· < ·) := List.isChain_iff_pairwise.mpr hOrd
  exact mapM_eq_ok fun index _ => if_pos hChain

/-- A listed name is found at its place, and the row says what the bit there says. -/
theorem Assignment.value?_eq (hOrd : Names.Ordered names) (hMem : name ∈ names) (index : Nat) :
    value? ⟨names, index⟩ name = .ok ((⟨names, index⟩ : Assignment).value name) := by
  obtain ⟨i, h, rfl⟩ := Array.mem_iff_getElem.mp hMem
  have hPosition : Names.position? names names[i] = some i :=
    (Names.position?_eq_some_iff hOrd).mpr ⟨h, rfl⟩
  simp only [value?, value, hPosition]

/-- Over names that hold its own a formula is evaluated without a failed lookup. -/
theorem Formula.eval?_eq (hOrd : Names.Ordered names) (hNames : ∀ name ∈ f.names, name ∈ names)
    (index : Nat) :
    f.eval? ⟨names, index⟩ = .ok (f.eval (⟨names, index⟩ : Assignment).value) := by
  induction f with
  | literal name negated =>
    rw [eval?, Assignment.value?_eq hOrd (hNames name (by simp))]
    rfl
  | binary op a b negated iha ihb =>
    -- the names of either side are names of the whole
    rw [names_binary] at hNames
    rw [eval?, iha fun name h => hNames name (List.mem_append_left _ h),
      ihb fun name h => hNames name (List.mem_append_right _ h)]
    rfl

/-- On every row of names that are in order and include those of a formula, the formula has its
value. -/
theorem Formula.eval?_of_mem_rows (hOrd : Names.Ordered names)
    (hNames : ∀ name ∈ f.names, name ∈ names) :
    ∀ row ∈ Assignment.rows names, f.eval? row = .ok (f.eval row.value) := by
  intro row hRow
  obtain ⟨rfl, -⟩ := Assignment.mem_rows.mp hRow
  exact eval?_eq hOrd hNames row.index

/-! ## Tables, verdicts and normal forms -/

/-- What is done with all rows of some names, if there are not too many names. -/
def overRows? {α : Type} (names : Array String)
    (visit : Array String → List Assignment → Except LookupError α) :
    Except LookupError (Except TooManyVariables α) := do
  match enumerable names with
  | .error e => return .error e
  | .ok names => return .ok (← visit names (← Assignment.rows? names))

/-- The limit is asked before a row is made, and it is the same limit with and without checks. -/
theorem overRows?_eq {α : Type} {visit? : Array String → List Assignment → Except LookupError α}
    (visit : Array String → List Assignment → α) (hOrd : Names.Ordered names)
    (h : visit? names (Assignment.rows names) = .ok (visit names (Assignment.rows names))) :
    overRows? names visit? =
      .ok (do let names ← enumerable names; return visit names (Assignment.rows names)) := by
  unfold overRows?
  -- too many names are refused before any row is looked at
  rcases Nat.lt_or_ge maxVariables names.size with hSize | hSize
  · rw [enumerable_of_lt hSize]
    rfl
  · rw [enumerable_of_le hSize]
    simp only [bind, Except.bind, Assignment.rows?_eq hOrd, h]
    rfl

namespace Formula

/-- The truth table, with every row and every name checked. -/
def truthTable? (f : Formula) : Except LookupError (Except TooManyVariables TruthTable) :=
  overRows? f.vocabulary fun names rows => return ⟨names, ← rows.mapM f.eval?⟩

/-- The variables of a formula are in order, and it uses no other names. -/
theorem eval?_of_mem_rows_vocabulary (f : Formula) :
    ∀ row ∈ Assignment.rows f.vocabulary, f.eval? row = .ok (f.eval row.value) :=
  eval?_of_mem_rows f.ordered_vocabulary fun _ => mem_vocabulary.mpr

/-- No lookup fails while a table is computed. -/
theorem truthTable?_eq (f : Formula) : f.truthTable? = .ok f.truthTable := by
  unfold truthTable? truthTable
  apply overRows?_eq (fun names rows => TruthTable.mk names (rows.map fun row => f.eval row.value))
    f.ordered_vocabulary
  rw [mapM_eq_ok f.eval?_of_mem_rows_vocabulary]
  rfl

end Formula

namespace Verdict

/-- Enters row after row until the verdict is settled, with every name checked. -/
def scan? (value : Assignment → Except LookupError Bool) :
    List Assignment → Verdict → Except LookupError Verdict
  | [], p => return p
  | row :: rows, p => do
    let p := p.enter (← value row) row.index
    if p.isSettled then return p else scan? value rows p

/-- A search for a verdict that finds all its values is the plain search. -/
theorem scan?_eq {value? : Assignment → Except LookupError Bool} {value : Assignment → Bool}
    {rows : List Assignment} (h : ∀ row ∈ rows, value? row = .ok (value row)) (p : Verdict) :
    scan? value? rows p = .ok (scan value rows p) := by
  induction rows generalizing p with
  | nil => rfl
  | cons row rows ih =>
    obtain ⟨hRow, hRows⟩ := List.forall_mem_cons.mp h
    -- both stop at the same row, because they have entered the same values
    rw [scan?, scan, hRow]
    show (if (p.enter (value row) row.index).isSettled then _ else _) = _
    rw [ih hRows]
    split <;> rfl

end Verdict

namespace Formula

/-- The verdict, with every row and every name checked. -/
def verdict? (f : Formula) : Except LookupError (Except TooManyVariables Verdict) :=
  overRows? f.vocabulary fun _ rows => Verdict.scan? f.eval? rows ⟨none, none⟩

theorem verdict?_eq (f : Formula) : f.verdict? = .ok f.verdict := by
  unfold verdict? verdict
  apply overRows?_eq (fun _ rows => Verdict.scan (fun row => f.eval row.value) rows ⟨none, none⟩)
    f.ordered_vocabulary
  exact Verdict.scan?_eq f.eval?_of_mem_rows_vocabulary _

end Formula

/-- The groups for the rows of a table, with every row checked. -/
def NormalForm.groups? (form : NormalForm) (t : TruthTable) :
    Except LookupError (List Formula) := do
  let rows ← Assignment.rows? t.names
  let grouped := ((rows.zip t.values).filter fun row => row.2 == form.groupedValue).map Prod.fst
  return match grouped.filterMap form.groupAt? with
    | [] => t.names.toList.map form.trivialGroup
    | gs => gs

theorem NormalForm.groups?_eq {form : NormalForm} {t : TruthTable} (hOrd : Names.Ordered t.names) :
    form.groups? t = .ok (form.groups t) := by
  simp only [groups?, groups, TruthTable.rowsWith, TruthTable.rows, bind, Except.bind,
    Assignment.rows?_eq hOrd]
  rfl

namespace Formula

/-- The canonical normal form, with every row and every name checked. -/
def normalize? (form : NormalForm) (f : Formula) :
    Except LookupError (Except TooManyVariables Formula) := do
  match ← f.truthTable? with
  | .error e => return .error e
  | .ok t =>
    let gs ← form.groups? t
    return .ok ((joinAll? form.outer gs).getD f)

/-- No lookup fails while a normal form is computed. -/
theorem normalize?_eq (form : NormalForm) (f : Formula) :
    f.normalize? form = .ok (f.normalize form) := by
  unfold normalize? normalize
  rw [truthTable?_eq]
  -- only a table within the limit has rows that are grouped
  rcases Nat.lt_or_ge maxVariables f.vocabulary.size with h | h
  · rw [truthTable_of_lt h]
    rfl
  · have hOrd : Names.Ordered f.table.names := f.ordered_vocabulary
    rw [truthTable_of_le h]
    simp only [bind, Except.bind, NormalForm.groups?_eq hOrd]
    rfl

end Formula

/-! ## Comparisons -/

/-- Whether the formulas have the value of the first one on a row, with every name checked. -/
def agreeOn? (first : Formula) (others : List Formula) (row : Assignment) :
    Except LookupError Bool := do
  let expected ← first.eval? row
  let values ← others.mapM (Formula.eval? row)
  return values.all (· == expected)

/-- In a row where each formula finds its names, the comparison is the plain one. -/
theorem agreeOn?_eq {row : Assignment}
    (h : ∀ f ∈ first :: others, f.eval? row = .ok (f.eval row.value)) :
    agreeOn? first others row =
      .ok (others.all fun f => f.eval row.value == first.eval row.value) := by
  obtain ⟨hFirst, hOthers⟩ := List.forall_mem_cons.mp h
  simp only [agreeOn?, bind, Except.bind, hFirst, mapM_eq_ok hOthers]
  rw [List.all_map]
  rfl

/-- Whether the formulas agree, with every row and every name checked. -/
def agree? (first : Formula) (others : List Formula) :
    Except LookupError (Except TooManyVariables Bool) :=
  overRows? (jointVocabulary (first :: others)) fun _ rows =>
    return (← rows.mapM (agreeOn? first others)).all id

/-- The joint names are in order, and each formula uses some of them. -/
theorem Formula.eval?_of_mem_rows_jointVocabulary (hf : f ∈ fs) :
    ∀ row ∈ Assignment.rows (jointVocabulary fs), f.eval? row = .ok (f.eval row.value) :=
  eval?_of_mem_rows (ordered_jointVocabulary fs) fun _ hName =>
    mem_jointVocabulary.mpr ⟨f, hf, hName⟩

/-- No lookup fails while formulas are compared over their joint names. -/
theorem agree?_eq (first : Formula) (others : List Formula) :
    agree? first others = .ok (agree first others) := by
  -- the rows are over the names of all formulas, so each formula finds its own
  have hRows : ∀ row ∈ Assignment.rows (jointVocabulary (first :: others)),
      agreeOn? first others row =
        .ok (others.all fun f => f.eval row.value == first.eval row.value) := by
    intro row hRow
    exact agreeOn?_eq fun f hf => Formula.eval?_of_mem_rows_jointVocabulary hf row hRow
  unfold agree? agree
  apply overRows?_eq (fun _ rows => rows.all fun row =>
    others.all fun f => f.eval row.value == first.eval row.value) (ordered_jointVocabulary _)
  rw [mapM_eq_ok hRows]
  show Except.ok ((List.map _ _).all id) = _
  rw [List.all_map]
  rfl

/-- Whether all formulas of the list are equivalent, with every row and every name checked. -/
def allEquivalent? : List Formula → Except LookupError (Except ComparisonError Bool)
  | f :: g :: rest => do
    let answer ← agree? f (g :: rest)
    return answer.mapError .tooManyVariables
  | fs => return .error (.tooFew fs.length)

/-- No lookup fails when all formulas are compared with the first. -/
theorem allEquivalent?_eq (fs : List Formula) :
    allEquivalent? fs = .ok (allEquivalent fs) := by
  match fs with
  | [] | [_] => rfl
  | f :: g :: rest =>
    rw [allEquivalent?, agree?_eq]
    rfl

/-- Whether no pair is equivalent, with every row and every name checked. -/
def noneEquivalent? :
    List (Formula × Formula) → Except LookupError (Except TooManyVariables Bool)
  | [] => return .ok true
  | (f, g) :: rest => do
    match ← agree? f [g] with
    | .error e => return .error e
    | .ok true => return .ok false
    | .ok false => noneEquivalent? rest

/-- No lookup fails when pairs are compared one after the other. -/
theorem noneEquivalent?_eq (ps : List (Formula × Formula)) :
    noneEquivalent? ps = .ok (noneEquivalent ps) := by
  induction ps with
  | nil => rfl
  | cons p ps ih =>
    obtain ⟨f, g⟩ := p
    rw [noneEquivalent?, noneEquivalent, agree?_eq, Formula.isEquivalent]
    -- an error or a pair that agrees ends the search on both sides
    cases agree f [g] with
    | error e => rfl
    | ok answer =>
      cases answer with
      | true => rfl
      | false => exact ih

/-- Whether no two formulas of the list are equivalent, with every row and every name checked. -/
def allDifferent? (fs : List Formula) : Except LookupError (Except ComparisonError Bool) := do
  if fs.length < 2 then return .error (.tooFew fs.length)
  let answer ← noneEquivalent? (pairs fs)
  return answer.mapError .tooManyVariables

/-- No lookup fails when every two formulas are compared. -/
theorem allDifferent?_eq (fs : List Formula) : allDifferent? fs = .ok (allDifferent fs) := by
  unfold allDifferent? allDifferent
  split
  · rfl
  · rw [noneEquivalent?_eq]
    rfl

/-! ## Names that serve formulas -/

/-- The names list what some formulas ask for: they stand in the order of their code points, each
once, and are those that the literals carry. A name that is asked for is found at a place, and the
bit at this place is what a row says of the name and what a valuation of it is encoded as. -/
structure Names.Lists (names : Array String) (fs : List Formula) : Prop where
  increasing : (names.toList.map codePoints).Pairwise (· < ·)
  mem_iff : ∀ name, name ∈ names ↔ ∃ f ∈ fs, ∃ negated, Subformula (.literal name negated) f
  found : ∀ f ∈ fs, ∀ name negated, Subformula (.literal name negated) f →
    ∃ i, Names.position? names name = some i ∧ names[i]? = some name ∧
      (∀ index, (⟨names, index⟩ : Assignment).value name = index.testBit i) ∧
      ∀ v : Valuation, (Assignment.encode names.toList v).testBit i = v name
  /-- On a row, no name is missed. -/
  evaluates : ∀ f ∈ fs, ∀ index,
    f.eval? ⟨names, index⟩ = .ok (f.eval (⟨names, index⟩ : Assignment).value)

/-- Ordered names are found where their bit is. -/
theorem Names.Ordered.exists_position (hOrd : Names.Ordered names) (hMem : name ∈ names) :
    ∃ i, Names.position? names name = some i ∧ names[i]? = some name ∧
      (∀ index, (⟨names, index⟩ : Assignment).value name = index.testBit i) ∧
      ∀ v : Valuation, (Assignment.encode names.toList v).testBit i = v name := by
  obtain ⟨i, h, rfl⟩ := Array.mem_iff_getElem.mp hMem
  refine ⟨i, (Names.position?_eq_some_iff hOrd).mpr ⟨h, rfl⟩, Array.getElem?_eq_getElem h, ?_, ?_⟩
  · intro index
    exact (Assignment.readsAs_value hOrd).listed i h
  · intro v
    rw [Assignment.testBit_encode names.toList v i (by simpa using h), Array.getElem_toList]

/-- The joint vocabulary lists the names of the formulas: in order, each once, and each is found. -/
theorem jointVocabulary_lists (fs : List Formula) : Names.Lists (jointVocabulary fs) fs where
  increasing := by
    rw [List.pairwise_map]
    exact (ordered_jointVocabulary fs).imp codePoints_lt
  mem_iff name := by simp only [mem_jointVocabulary, Formula.mem_names_iff]
  found := by
    intro f hf name negated hLiteral
    have hName : name ∈ f.names := Formula.mem_names_iff.mpr ⟨negated, hLiteral⟩
    exact (ordered_jointVocabulary fs).exists_position (mem_jointVocabulary.mpr ⟨f, hf, hName⟩)
  evaluates := by
    intro f hf
    exact Formula.eval?_eq (ordered_jointVocabulary fs) fun name hName =>
      mem_jointVocabulary.mpr ⟨f, hf, hName⟩

/-- **Variables are listed in order, and every name is found.** The variables of a formula list what
it asks for, and the joint variables of a list what its members ask for. Whatever visits rows makes
them over names in order and asks for listed names only: with both checked at every row and every
name, tables, verdicts, normal forms and comparisons are what they are without. -/
theorem variables_ordered_and_found (f : Formula) (fs : List Formula) :
    Names.Lists f.vocabulary [f] ∧ Names.Lists (jointVocabulary fs) fs ∧
      f.truthTable? = .ok f.truthTable ∧ f.verdict? = .ok f.verdict ∧
      (∀ form, f.normalize? form = .ok (f.normalize form)) ∧
      (∀ g, agree? f [g] = .ok (f.isEquivalent g)) ∧
      allEquivalent? fs = .ok (allEquivalent fs) ∧ allDifferent? fs = .ok (allDifferent fs) := by
  rw [f.vocabulary_eq_jointVocabulary]
  exact ⟨jointVocabulary_lists [f], jointVocabulary_lists fs, f.truthTable?_eq, f.verdict?_eq,
    f.normalize?_eq, fun g => agree?_eq f [g], allEquivalent?_eq fs, allDifferent?_eq fs⟩

end Propositional
