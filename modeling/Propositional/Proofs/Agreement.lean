import Propositional.Comparison
import Propositional.Proofs.Restatement
import Propositional.Proofs.Tabulation

/-!
# Propositional — agreement over joint variables

A list of formulas is compared on the rows of its joint variables, each formula with the
first. Two steps turn this into a statement about the list alone: agreeing with the first
is agreeing with each other, and the joint rows tell what all valuations tell, because
every formula of the list uses joint variables only.

So the answer depends on the members and not on how they are listed. Main result:
`allEquivalent_decides`.
-/

namespace Propositional

variable {f g first : Formula} {fs others : List Formula}

/-! ## Joint variables -/

/-- The joint variables are the different names of the whole list. -/
theorem size_jointVocabulary (fs : List Formula) :
    (jointVocabulary fs).size = (fs.flatMap Formula.names).toFinset.card :=
  Names.size_ofList _

/-- The joint variables of a list are those of its members, in whatever order and however often
these are listed. -/
theorem jointVocabulary_congr {fs' : List Formula} (hSame : ∀ f, f ∈ fs' ↔ f ∈ fs) :
    jointVocabulary fs' = jointVocabulary fs := by
  apply (ordered_jointVocabulary fs').eq_of_mem_iff (ordered_jointVocabulary fs)
  intro name
  simp only [mem_jointVocabulary, hSame]

/-! ## Visiting the joint rows -/

/-- The joint rows tell apart what any valuation tells apart. -/
theorem forall_jointRows_iff :
    (∀ row ∈ Assignment.rows (jointVocabulary fs),
        ∀ f ∈ fs, ∀ g ∈ fs, f.eval row.value = g.eval row.value) ↔
      ∀ v : Valuation, ∀ f ∈ fs, ∀ g ∈ fs, f.eval v = g.eval v := by
  apply Assignment.forall_mem_rows_iff (ordered_jointVocabulary fs)
    (p := fun v => ∀ f ∈ fs, ∀ g ∈ fs, f.eval v = g.eval v)
  intro v w hAgree hv f hf g hg
  -- a member of the list reads joint variables only
  have hMember : ∀ k ∈ fs, k.eval v = k.eval w := by
    intro k hk
    apply Formula.eval_congr
    intro name hName
    exact hAgree name (mem_jointVocabulary.mpr ⟨k, hk, hName⟩)
  rw [← hMember f hf, ← hMember g hg]
  exact hv f hf g hg

/-- Having the value of the first is having the value of each other. -/
theorem forall_eval_eq_first_iff {v : Valuation} :
    (∀ f ∈ others, f.eval v = first.eval v) ↔
      ∀ f ∈ first :: others, ∀ g ∈ first :: others, f.eval v = g.eval v := by
  constructor
  · intro hFirst
    -- the first has its own value too
    have hAll : ∀ f ∈ first :: others, f.eval v = first.eval v :=
      List.forall_mem_cons.mpr ⟨rfl, hFirst⟩
    intro f hf g hg
    rw [hAll f hf, hAll g hg]
  · intro hAll f hf
    exact hAll f (List.mem_cons_of_mem _ hf) first (List.mem_cons_self ..)

theorem agree_of_lt (h : maxVariables < (jointVocabulary (first :: others)).size) :
    agree first others = .error ⟨(jointVocabulary (first :: others)).size, maxVariables⟩ := by
  rw [agree, enumerable_of_lt h]
  rfl

/-- Up to the limit there is an answer, and it is about all valuations. -/
theorem exists_agree_eq_ok (h : (jointVocabulary (first :: others)).size ≤ maxVariables) :
    ∃ answer, agree first others = .ok answer ∧ (answer = true ↔
      ∀ v : Valuation, ∀ f ∈ first :: others, ∀ g ∈ first :: others, f.eval v = g.eval v) := by
  rw [agree, enumerable_of_le h]
  refine ⟨_, rfl, ?_⟩
  simp only [List.all_eq_true, beq_iff_eq]
  -- the rows stand for all valuations, and the first formula for all others
  rw [← forall_jointRows_iff]
  exact forall₂_congr fun row _ => forall_eval_eq_first_iff

/-! ## Two formulas -/

namespace Formula

theorem isEquivalent_of_lt (h : maxVariables < (jointVocabulary [f, g]).size) :
    f.isEquivalent g = .error ⟨(jointVocabulary [f, g]).size, maxVariables⟩ :=
  agree_of_lt h

/-- Up to the limit the answer for two formulas is whether they are equivalent. -/
theorem exists_isEquivalent_eq_ok (h : (jointVocabulary [f, g]).size ≤ maxVariables) :
    ∃ answer, f.isEquivalent g = .ok answer ∧ (answer = true ↔ f.Equivalent g) := by
  obtain ⟨answer, hAnswer, hIff⟩ := exists_agree_eq_ok h
  refine ⟨answer, hAnswer, hIff.trans ?_⟩
  simp only [List.forall_mem_cons, List.not_mem_nil, false_imp_iff, implies_true, and_true,
    true_and]
  -- of the four comparisons within a pair two say something, and they say the same
  exact ⟨fun hAll v => (hAll v).1, fun hEq v => ⟨hEq v, (hEq v).symm⟩⟩

/-- Two formulas are found equivalent if and only if they are, and their joint variables keep to
the limit. -/
theorem isEquivalent_eq_ok_true_iff :
    f.isEquivalent g = .ok true ↔
      (jointVocabulary [f, g]).size ≤ maxVariables ∧ f.Equivalent g := by
  rcases Nat.lt_or_ge maxVariables (jointVocabulary [f, g]).size with h | h
  · rw [isEquivalent_of_lt h]
    simp [h]
  · obtain ⟨answer, hAnswer, hIff⟩ := exists_isEquivalent_eq_ok h
    rw [hAnswer, Except.ok.injEq, hIff, and_iff_right h]

end Formula

/-! ## A list of formulas -/

/-- Beyond the limit a list is not compared, and the number of its joint variables is told. -/
theorem allEquivalent_of_lt (hTwo : 2 ≤ fs.length)
    (h : maxVariables < (jointVocabulary fs).size) :
    allEquivalent fs = .error (.tooManyVariables ⟨(jointVocabulary fs).size, maxVariables⟩) := by
  match fs, hTwo with
  | first :: second :: rest, _ =>
    rw [allEquivalent, agree_of_lt h]
    rfl

/-- Up to the limit the answer for a list is whether all its members are equivalent. -/
theorem exists_allEquivalent_eq_ok (hTwo : 2 ≤ fs.length)
    (h : (jointVocabulary fs).size ≤ maxVariables) :
    ∃ answer, allEquivalent fs = .ok answer ∧
      (answer = true ↔ ∀ v : Valuation, ∀ f ∈ fs, ∀ g ∈ fs, f.eval v = g.eval v) := by
  match fs, hTwo with
  | first :: second :: rest, _ =>
    obtain ⟨answer, hAnswer, hIff⟩ := exists_agree_eq_ok h
    refine ⟨answer, ?_, hIff⟩
    rw [allEquivalent, hAnswer]
    rfl

/-- The answer for a list depends on its members only. -/
theorem allEquivalent_congr {fs' : List Formula} (hTwo : 2 ≤ fs.length) (hTwo' : 2 ≤ fs'.length)
    (hSame : ∀ f, f ∈ fs' ↔ f ∈ fs) : allEquivalent fs' = allEquivalent fs := by
  have hJoint := jointVocabulary_congr hSame
  rcases Nat.lt_or_ge maxVariables (jointVocabulary fs).size with h | h
  · rw [allEquivalent_of_lt hTwo h, allEquivalent_of_lt hTwo' (hJoint ▸ h), hJoint]
  · obtain ⟨answer, hAnswer, hIff⟩ := exists_allEquivalent_eq_ok hTwo h
    obtain ⟨answer', hAnswer', hIff'⟩ := exists_allEquivalent_eq_ok hTwo' (hJoint ▸ h)
    -- both answers say the same of the same members
    have hEq : answer' = answer := by
      rw [Bool.eq_iff_iff, hIff, hIff']
      simp only [hSame]
    rw [hAnswer, hAnswer', hEq]

/-- **Comparing decides equivalence.** With too many joint variables their number is the answer.
Otherwise the answer tells whether the formulas have the same value under every valuation, of
whatever names. It is the same for a list with the same members, so for one in another order or
with repetitions. -/
theorem allEquivalent_decides (hTwo : 2 ≤ fs.length) :
    (maxVariables < (fs.flatMap Formula.names).toFinset.card → allEquivalent fs =
      .error (.tooManyVariables ⟨(fs.flatMap Formula.names).toFinset.card, maxVariables⟩)) ∧
    ((fs.flatMap Formula.names).toFinset.card ≤ maxVariables →
      (allEquivalent fs = .ok true ↔
        ∀ v : Valuation, ∀ f ∈ fs, ∀ g ∈ fs, f.eval v = g.eval v) ∧
      (allEquivalent fs = .ok false ↔
        ¬ ∀ v : Valuation, ∀ f ∈ fs, ∀ g ∈ fs, f.eval v = g.eval v)) ∧
    (∀ fs' : List Formula, 2 ≤ fs'.length → (∀ f, f ∈ fs' ↔ f ∈ fs) →
      allEquivalent fs' = allEquivalent fs) := by
  rw [← size_jointVocabulary]
  refine ⟨allEquivalent_of_lt hTwo, ?_, ?_⟩
  · intro h
    obtain ⟨answer, hAnswer, hIff⟩ := exists_allEquivalent_eq_ok hTwo h
    rw [hAnswer, Except.ok.injEq, Except.ok.injEq, ← hIff, Bool.not_eq_true]
    exact ⟨Iff.rfl, Iff.rfl⟩
  · intro fs' hTwo' hSame
    exact allEquivalent_congr hTwo hTwo' hSame

/-- Three ways to write an implication, in another order and with a repetition, and a comparison
that is refused. -/
theorem allEquivalent_decides_implications :
    let f := Formula.join .implies (.var "A") (.var "B")
    let g := Formula.join .or (.notVar "A") (.var "B")
    let k := Formula.join .implies (.notVar "B") (.notVar "A")
    2 ≤ [f, g, k].length ∧ allEquivalent [f, g, k] = .ok true ∧
      allEquivalent [k, f, g, f] = .ok true ∧
      allEquivalent [f, Formula.oversized] = .error (.tooManyVariables ⟨19, 16⟩) := by
  intro f g k
  have hThree : 2 ≤ [f, g, k].length := by decide
  have hTwo : 2 ≤ [f, Formula.oversized].length := by decide
  obtain ⟨-, hDecides, hSame⟩ := allEquivalent_decides hThree
  have hEval : ∀ v : Valuation, ∀ h ∈ [f, g, k], ∀ h' ∈ [f, g, k], h.eval v = h'.eval v := by
    intro v
    -- the three formulas look at two names
    cases hA : v "A" <;> cases hB : v "B" <;>
      simp [f, g, k, Formula.join, Formula.var, Formula.notVar, Formula.eval, Connective.apply,
        hA, hB]
  have hTrue : allEquivalent [f, g, k] = .ok true := (hDecides (by decide)).1.mpr hEval
  have hListed : allEquivalent [k, f, g, f] = allEquivalent [f, g, k] := by
    apply hSame
    · decide
    · grind
  have hCard : ([f, Formula.oversized].flatMap Formula.names).toFinset.card = 19 := by decide
  have hRefused := (allEquivalent_decides hTwo).1
  rw [hCard] at hRefused
  exact ⟨hThree, hTrue, hListed.trans hTrue, hRefused (by decide)⟩

end Propositional
