import Mathlib.Data.Finite.Prod
import Mathlib.Data.List.FinRange
import Mathlib.Data.Prod.Lex
import Mathlib.Order.Bounds.Basic
import Mathlib.Order.Preorder.Finite
import Propositional.Proofs.Agreement

/-!
# Propositional — comparing pair by pair

Whether no two formulas of a list are equivalent is asked of one pair after the other, each
over the variables of its two formulas. A pair with too many variables ends the search with an
error and an equivalent pair ends it with the answer no, so which pair comes first matters.
`Places` are the pairs of a list as places, in the order in which they are compared; the
search takes what the first pair settles (`Places.noneEquivalent_of_first`).

As long as the joint variables of the whole list keep to the limit, no pair exceeds it. The
answer is then about the members only: about all two of them, and about neighbours where all
are compared at once, because equivalence is transitive. That each pair has its own variables
makes no difference, since every answer is about all valuations.

Main result: `allDifferent_settled_by_pairs`.
-/

namespace Propositional

variable {f g : Formula} {fs : List Formula}

/-! ## Pairs of a list -/

section Pairs

variable {α β : Type} {xs : List α}

/-- Pairing goes along with a map. -/
theorem pairs_map (g : α → β) (xs : List α) : pairs (xs.map g) = (pairs xs).map (Prod.map g g) := by
  induction xs with
  | nil => rfl
  | cons x xs ih =>
    simp only [List.map_cons, pairs, ih, List.map_append, List.map_map]
    rfl

variable [Preorder α]

/-- The pairs of an increasing list are its members with those above them. -/
theorem mem_pairs_iff (hOrd : xs.Pairwise (· < ·)) {x y : α} :
    (x, y) ∈ pairs xs ↔ x ∈ xs ∧ y ∈ xs ∧ x < y := by
  induction xs with
  | nil => simp [pairs]
  | cons head xs ih =>
    obtain ⟨hHead, hTail⟩ := List.pairwise_cons.mp hOrd
    -- a pair has the head on the left, or it is a pair of the rest
    rw [pairs, List.mem_append, ih hTail, List.mem_map, List.mem_cons, List.mem_cons]
    constructor
    · rintro (⟨z, hz, hPair⟩ | ⟨hx, hy, hLess⟩)
      · obtain ⟨rfl, rfl⟩ := Prod.mk.inj hPair
        exact ⟨.inl rfl, .inr hz, hHead z hz⟩
      · exact ⟨.inr hx, .inr hy, hLess⟩
    · rintro ⟨rfl | hx, rfl | hy, hLess⟩
      · exact absurd hLess (lt_irrefl _)
      · exact .inl ⟨y, hy, rfl⟩
      · -- nothing is below the head
        exact absurd hLess (hHead x hx).not_gt
      · exact .inr ⟨hx, hy, hLess⟩

/-- They come by the first member and then by the second one. -/
theorem pairwise_pairs (hOrd : xs.Pairwise (· < ·)) :
    (pairs xs).Pairwise (Prod.Lex (· < ·) (· < ·)) := by
  induction xs with
  | nil => exact .nil
  | cons head xs ih =>
    obtain ⟨hHead, hTail⟩ := List.pairwise_cons.mp hOrd
    rw [pairs, List.pairwise_append]
    refine ⟨List.pairwise_map.mpr (hTail.imp fun h => .right head h), ih hTail, ?_⟩
    -- pairs with the head come before all others, whose first entry is larger
    rintro pair hPair ⟨x, y⟩ hMem
    obtain ⟨z, -, rfl⟩ := List.mem_map.mp hPair
    exact .left z y (hHead x ((mem_pairs_iff hTail).mp hMem).1)

end Pairs

/-! ## Two places of a list -/

/-- Two places of a list, the first before the second. -/
@[ext]
structure Places (fs : List Formula) where
  first : Fin fs.length
  second : Fin fs.length
  first_lt : first < second

namespace Places

/-- Places are ordered by the first one and then by the second one. -/
def key (p : Places fs) : Fin fs.length ×ₗ Fin fs.length := toLex (p.first, p.second)

theorem key_injective : Function.Injective (key : Places fs → _) := by
  intro p q h
  have hBoth : (p.first, p.second) = (q.first, q.second) := h
  rw [Prod.mk.injEq] at hBoth
  exact Places.ext hBoth.1 hBoth.2

instance : LinearOrder (Places fs) := LinearOrder.lift' key key_injective

instance : Finite (Places fs) :=
  Finite.of_injective (fun p => ofLex p.key) (ofLex.injective.comp key_injective)

theorem le_iff {p q : Places fs} :
    p ≤ q ↔ p.first < q.first ∨ p.first = q.first ∧ p.second ≤ q.second :=
  Prod.Lex.toLex_le_toLex

/-- The two places at the front. -/
def front (hTwo : 2 ≤ fs.length) : Places fs where
  first := ⟨0, by omega⟩
  second := ⟨1, by omega⟩
  first_lt := Nat.zero_lt_one

/-- Nothing is compared before the formulas at the front. -/
theorem front_le (hTwo : 2 ≤ fs.length) (p : Places fs) : front hTwo ≤ p := by
  have hLess : p.first.val < p.second.val := p.first_lt
  rw [le_iff, Fin.lt_def, Fin.ext_iff, Fin.le_def]
  show 0 < p.first.val ∨ 0 = p.first.val ∧ 1 ≤ p.second.val
  omega

theorem exists_isLeast {S : Set (Places fs)} (h : S.Nonempty) : ∃ p, IsLeast S p := by
  obtain ⟨p, hMinimal⟩ := S.toFinite.exists_minimal h
  exact ⟨p, minimal_iff_isLeast.mp hMinimal⟩

/-- The formulas at the two places. -/
def formulas (p : Places fs) : Formula × Formula := (fs.get p.first, fs.get p.second)

/-- The number of different names in the two formulas together. -/
def count (p : Places fs) : Nat :=
  (p.formulas.1.names.toFinset ∪ p.formulas.2.names.toFinset).card

/-- The two formulas together have too many variables. -/
def IsOversized (p : Places fs) : Prop := maxVariables < p.count

/-- The two formulas can be compared, and no valuation tells them apart. -/
def IsEqual (p : Places fs) : Prop := ¬ p.IsOversized ∧ p.formulas.1.Equivalent p.formulas.2

/-- A pair is not both too large and equal. -/
theorem IsOversized.lt_of_le {p q : Places fs} (hOversized : p.IsOversized) (hEqual : q.IsEqual)
    (h : p ≤ q) : p < q := by
  refine lt_of_le_of_ne h ?_
  rintro rfl
  exact hEqual.1 hOversized

/-- Every two places, in their order. -/
def all (fs : List Formula) : List (Places fs) :=
  (pairs (List.finRange fs.length)).pmap (fun place h => ⟨place.1, place.2, h⟩)
    fun _ hMem => ((mem_pairs_iff (List.pairwise_lt_finRange _)).mp hMem).2.2

theorem mem_all (p : Places fs) : p ∈ all fs := by
  have hMem : (p.first, p.second) ∈ pairs (List.finRange fs.length) :=
    (mem_pairs_iff (List.pairwise_lt_finRange _)).mpr
      ⟨List.mem_finRange _, List.mem_finRange _, p.first_lt⟩
  exact List.mem_pmap.mpr ⟨_, hMem, rfl⟩

theorem pairwise_all (fs : List Formula) : (all fs).Pairwise (· < ·) := by
  rw [all, List.pairwise_pmap]
  apply (pairwise_pairs (List.pairwise_lt_finRange fs.length)).imp
  intro place place' hLex _ _
  exact Prod.Lex.toLex_lt_toLex.mpr (Prod.lex_def.mp hLex)

/-- The formulas at all places are the pairs that are compared. -/
theorem map_formulas_all (fs : List Formula) : (all fs).map formulas = pairs fs := by
  rw [all, List.map_pmap]
  show (pairs (List.finRange fs.length)).pmap (fun place _ => Prod.map fs.get fs.get place) _ = _
  rw [List.pmap_eq_map, ← pairs_map, List.map_get_finRange]

end Places

/-! ## Searching through the pairs -/

/-- What a pair settles: an equivalent one that the answer is no, one that cannot be compared that
there is none, and any other one nothing. -/
def settled? (pair : Formula × Formula) : Option (Except TooManyVariables Bool) :=
  match pair.1.isEquivalent pair.2 with
  | .ok false => none
  | .ok true => some (.ok false)
  | .error e => some (.error e)

/-- The search ends with the first pair that settles it, and answers yes if none does. -/
theorem noneEquivalent_eq (ps : List (Formula × Formula)) :
    noneEquivalent ps = (ps.findSome? settled?).getD (.ok true) := by
  induction ps with
  | nil => rfl
  | cons pair ps ih =>
    obtain ⟨f, g⟩ := pair
    rw [noneEquivalent, List.findSome?_cons, settled?]
    match f.isEquivalent g with
    | .ok false => exact ih
    | .ok true => rfl
    | .error e => rfl

namespace Places

variable {p : Places fs}

/-- Searching through the pairs is searching through the places. -/
theorem noneEquivalent_pairs (fs : List Formula) :
    noneEquivalent (pairs fs) =
      ((all fs).findSome? fun p => settled? p.formulas).getD (.ok true) := by
  rw [noneEquivalent_eq, ← map_formulas_all, List.findSome?_map]
  rfl

/-- The least place that settles the search gives its answer. -/
theorem noneEquivalent_of_first {answer : Except TooManyVariables Bool}
    (hFirst : settled? p.formulas = some answer) (hBefore : ∀ q < p, settled? q.formulas = none) :
    noneEquivalent (pairs fs) = answer := by
  obtain ⟨before, after, hAll⟩ := List.append_of_mem p.mem_all
  have hOrd := pairwise_all fs
  rw [hAll, List.pairwise_append] at hOrd
  have hFound : (all fs).findSome? (fun p => settled? p.formulas) = some answer := by
    refine List.findSome?_eq_some_iff.mpr ⟨before, p, after, hAll, hFirst, ?_⟩
    intro q hq
    -- what stands before the place in the list is smaller
    exact hBefore q (hOrd.2.2 q hq p (List.mem_cons_self ..))
  rw [noneEquivalent_pairs, hFound]
  rfl

/-- If no place settles it the search answers yes. -/
theorem noneEquivalent_of_forall (h : ∀ p : Places fs, settled? p.formulas = none) :
    noneEquivalent (pairs fs) = .ok true := by
  have hFound : (all fs).findSome? (fun p => settled? p.formulas) = none :=
    List.findSome?_eq_none_iff.mpr fun p _ => h p
  rw [noneEquivalent_pairs, hFound]
  rfl

/-! ## What a pair settles -/

theorem size_jointVocabulary_formulas (p : Places fs) :
    (jointVocabulary [p.formulas.1, p.formulas.2]).size = p.count := by
  simp [size_jointVocabulary, count]

theorem IsOversized.settled?_eq (h : p.IsOversized) :
    settled? p.formulas = some (.error ⟨p.count, maxVariables⟩) := by
  have hCount := p.size_jointVocabulary_formulas
  rw [settled?, Formula.isEquivalent_of_lt (hCount ▸ h), hCount]

theorem IsEqual.settled?_eq (h : p.IsEqual) : settled? p.formulas = some (.ok false) := by
  have hCount := p.size_jointVocabulary_formulas
  have hEquivalent : p.formulas.1.isEquivalent p.formulas.2 = .ok true :=
    Formula.isEquivalent_eq_ok_true_iff.mpr ⟨hCount ▸ Nat.le_of_not_lt h.1, h.2⟩
  rw [settled?, hEquivalent]

/-- Two formulas within the limit that differ settle nothing. -/
theorem settled?_eq_none (hOversized : ¬ p.IsOversized) (hEqual : ¬ p.IsEqual) :
    settled? p.formulas = none := by
  have hCount := p.size_jointVocabulary_formulas
  obtain ⟨answer, hAnswer, hIff⟩ :=
    Formula.exists_isEquivalent_eq_ok (hCount ▸ Nat.le_of_not_lt hOversized)
  rw [settled?, hAnswer]
  cases answer with
  | true => exact absurd ⟨hOversized, hIff.mp rfl⟩ hEqual
  | false => rfl

/-- The pair is the first one with too many variables, and every equal pair comes later. -/
structure FailsFirst (p : Places fs) : Prop where
  isLeast : IsLeast {q : Places fs | q.IsOversized} p
  equal_later : ∀ q : Places fs, q.IsEqual → p < q

/-- The pair is the first equal one, and no pair with too many variables comes before it. -/
structure EndsFirst (p : Places fs) : Prop where
  isLeast : IsLeast {q : Places fs | q.IsEqual} p
  oversized_later : ∀ q : Places fs, q.IsOversized → ¬ q < p

/-- A search fails, ends early or goes through. -/
theorem first_cases (fs : List Formula) :
    (∃ p : Places fs, p.FailsFirst) ∨ (∃ p : Places fs, p.EndsFirst) ∨
      ∀ p : Places fs, ¬ p.IsOversized ∧ ¬ p.IsEqual := by
  rcases Set.eq_empty_or_nonempty {q : Places fs | q.IsOversized ∨ q.IsEqual} with hNone | hSome
  · refine .inr (.inr fun p => not_or.mp fun h => ?_)
    exact Set.eq_empty_iff_forall_notMem.mp hNone p h
  · -- the least place that settles anything; the places of either kind are among those that do
    obtain ⟨p, hSettles, hLeast⟩ := exists_isLeast hSome
    rcases hSettles with hOversized | hEqual
    · exact .inl ⟨p, ⟨hOversized, fun q hq => hLeast (.inl hq)⟩,
        fun q hq => hOversized.lt_of_le hq (hLeast (.inr hq))⟩
    · exact .inr (.inl ⟨p, ⟨hEqual, fun q hq => hLeast (.inr hq)⟩,
        fun q hq => (hLeast (.inl hq)).not_gt⟩)

end Places

/-! ## The answer for a list -/

/-- With two formulas or more, what decides is the search through the pairs. -/
theorem allDifferent_eq (hTwo : 2 ≤ fs.length) :
    allDifferent fs = (noneEquivalent (pairs fs)).mapError .tooManyVariables :=
  if_neg (Nat.not_lt.mpr hTwo)

/-- If a place fails first, its error is the answer. -/
theorem allDifferent_of_failsFirst (hTwo : 2 ≤ fs.length) {p : Places fs} (h : p.FailsFirst) :
    allDifferent fs = .error (.tooManyVariables ⟨p.count, maxVariables⟩) := by
  -- what comes before is neither oversized nor equal
  have hBefore : ∀ q < p, settled? q.formulas = none := by
    intro q hq
    exact Places.settled?_eq_none (fun hOversized => hq.not_ge (h.isLeast.2 hOversized))
      fun hEqual => hq.asymm (h.equal_later q hEqual)
  have hOversized : p.IsOversized := h.isLeast.1
  rw [allDifferent_eq hTwo, Places.noneEquivalent_of_first hOversized.settled?_eq hBefore]
  rfl

/-- If two formulas are found to be equivalent first, the answer is no. -/
theorem allDifferent_of_endsFirst (hTwo : 2 ≤ fs.length) {p : Places fs} (h : p.EndsFirst) :
    allDifferent fs = .ok false := by
  have hBefore : ∀ q < p, settled? q.formulas = none := by
    intro q hq
    exact Places.settled?_eq_none (fun hOversized => h.oversized_later q hOversized hq)
      fun hEqual => hq.not_ge (h.isLeast.2 hEqual)
  have hEqual : p.IsEqual := h.isLeast.1
  rw [allDifferent_eq hTwo, Places.noneEquivalent_of_first hEqual.settled?_eq hBefore]
  rfl

/-- If no place settles it, the answer is yes. -/
theorem allDifferent_of_forall (hTwo : 2 ≤ fs.length)
    (h : ∀ p : Places fs, ¬ p.IsOversized ∧ ¬ p.IsEqual) : allDifferent fs = .ok true := by
  have hNone : ∀ p : Places fs, settled? p.formulas = none :=
    fun p => Places.settled?_eq_none (h p).1 (h p).2
  rw [allDifferent_eq hTwo, Places.noneEquivalent_of_forall hNone]
  rfl

/-- The answer is an error exactly if a place fails first, and then it is the one of that place. -/
theorem allDifferent_eq_error_iff (hTwo : 2 ≤ fs.length) {e : ComparisonError} :
    allDifferent fs = .error e ↔
      ∃ p : Places fs, p.FailsFirst ∧ e = .tooManyVariables ⟨p.count, maxVariables⟩ := by
  constructor
  · intro hAnswer
    -- the three cases exclude each other by the answers they give
    rcases Places.first_cases fs with ⟨p, hFails⟩ | ⟨p, hEnds⟩ | hThrough
    · rw [allDifferent_of_failsFirst hTwo hFails] at hAnswer
      exact ⟨p, hFails, (Except.error.inj hAnswer).symm⟩
    · exact nomatch (allDifferent_of_endsFirst hTwo hEnds).symm.trans hAnswer
    · exact nomatch (allDifferent_of_forall hTwo hThrough).symm.trans hAnswer
  · rintro ⟨p, hFails, rfl⟩
    exact allDifferent_of_failsFirst hTwo hFails

/-- The answer is no exactly if two formulas are found to be equivalent first. -/
theorem allDifferent_eq_ok_false_iff (hTwo : 2 ≤ fs.length) :
    allDifferent fs = .ok false ↔ ∃ p : Places fs, p.EndsFirst := by
  constructor
  · intro hAnswer
    rcases Places.first_cases fs with ⟨p, hFails⟩ | hEnds | hThrough
    · exact nomatch (allDifferent_of_failsFirst hTwo hFails).symm.trans hAnswer
    · exact hEnds
    · exact nomatch (allDifferent_of_forall hTwo hThrough).symm.trans hAnswer
  · rintro ⟨p, hEnds⟩
    exact allDifferent_of_endsFirst hTwo hEnds

/-- The answer is yes exactly if no place settles it. -/
theorem allDifferent_eq_ok_true_iff (hTwo : 2 ≤ fs.length) :
    allDifferent fs = .ok true ↔ ∀ p : Places fs, ¬ p.IsOversized ∧ ¬ p.IsEqual := by
  constructor
  · intro hAnswer
    rcases Places.first_cases fs with ⟨p, hFails⟩ | ⟨p, hEnds⟩ | hThrough
    · exact nomatch (allDifferent_of_failsFirst hTwo hFails).symm.trans hAnswer
    · exact nomatch (allDifferent_of_endsFirst hTwo hEnds).symm.trans hAnswer
    · exact hThrough
  · exact allDifferent_of_forall hTwo

/-! ## Within the limit -/

/-- Fewer formulas have no more variables. -/
theorem size_jointVocabulary_le {fs' : List Formula} (h : fs' ⊆ fs) :
    (jointVocabulary fs').size ≤ (jointVocabulary fs).size := by
  rw [size_jointVocabulary, size_jointVocabulary]
  apply Finset.card_le_card
  intro name hName
  rw [List.mem_toFinset, List.mem_flatMap] at hName ⊢
  obtain ⟨f, hf, hName⟩ := hName
  exact ⟨f, h hf, hName⟩

theorem size_jointVocabulary_pair_le (hf : f ∈ fs) (hg : g ∈ fs) :
    (jointVocabulary [f, g]).size ≤ (jointVocabulary fs).size :=
  size_jointVocabulary_le (List.forall_mem_cons.mpr ⟨hf, List.forall_mem_singleton.mpr hg⟩)

section Limited

variable (hTwo : 2 ≤ fs.length) (hLimit : (jointVocabulary fs).size ≤ maxVariables)

include hLimit in
/-- Within the limit no two of the formulas are beyond it. -/
theorem Places.not_isOversized (p : Places fs) : ¬ p.IsOversized := by
  have hLe : p.count ≤ (jointVocabulary fs).size := by
    rw [← p.size_jointVocabulary_formulas]
    exact size_jointVocabulary_pair_le (List.get_mem ..) (List.get_mem ..)
  exact Nat.not_lt.mpr (hLe.trans hLimit)

include hTwo hLimit

/-- There is an answer, and it is about the members two by two. -/
theorem exists_allDifferent_eq_ok :
    ∃ answer, allDifferent fs = .ok answer ∧
      (answer = true ↔ fs.Pairwise fun f g => ¬ f.Equivalent g) := by
  -- within the limit no pair fails, so the search is about equivalence alone
  rcases Places.first_cases fs with ⟨p, hFails⟩ | ⟨p, hEnds⟩ | hThrough
  · exact absurd hFails.isLeast.1 (p.not_isOversized hLimit)
  · refine ⟨false, allDifferent_of_endsFirst hTwo hEnds, iff_of_false Bool.false_ne_true ?_⟩
    intro hDifferent
    have hEqual : p.IsEqual := hEnds.isLeast.1
    exact List.pairwise_iff_get.mp hDifferent p.first p.second p.first_lt hEqual.2
  · refine ⟨true, allDifferent_of_forall hTwo hThrough, iff_of_true rfl ?_⟩
    apply List.pairwise_iff_get.mpr
    intro i j hLess hEquivalent
    obtain ⟨hNotOversized, hNotEqual⟩ := hThrough ⟨i, j, hLess⟩
    exact hNotEqual ⟨hNotOversized, hEquivalent⟩

/-- The order of the list makes no difference. -/
theorem allDifferent_perm {fs' : List Formula} (hPerm : fs'.Perm fs) :
    allDifferent fs' = allDifferent fs := by
  have hJoint : jointVocabulary fs' = jointVocabulary fs :=
    jointVocabulary_congr fun f => hPerm.mem_iff
  obtain ⟨answer, hAnswer, hIff⟩ := exists_allDifferent_eq_ok hTwo hLimit
  obtain ⟨answer', hAnswer', hIff'⟩ :=
    exists_allDifferent_eq_ok (hPerm.length_eq ▸ hTwo) (hJoint ▸ hLimit)
  have hEq : answer' = answer := by
    rw [Bool.eq_iff_iff, hIff, hIff']
    -- a symmetric relation between any two members does not mind which of them comes first
    exact hPerm.pairwise_iff fun h h' => h h'.symm
  rw [hAnswer, hAnswer', hEq]

/-- Comparing all at once is comparing neighbours. -/
theorem allEquivalent_eq_ok_true_iff_isChain :
    allEquivalent fs = .ok true ↔ fs.IsChain fun f g => f.isEquivalent g = .ok true := by
  obtain ⟨answer, hAnswer, hIff⟩ := exists_allEquivalent_eq_ok hTwo hLimit
  rw [hAnswer, Except.ok.injEq, hIff]
  constructor
  · intro hAll
    apply List.Pairwise.isChain
    apply List.pairwise_of_forall_mem_list
    intro f hf g hg
    exact Formula.isEquivalent_eq_ok_true_iff.mpr
      ⟨(size_jointVocabulary_pair_le hf hg).trans hLimit, fun v => hAll v f hf g hg⟩
  · intro hChain
    have hNeighbours : fs.IsChain Formula.Equivalent :=
      hChain.imp fun f g h => (Formula.isEquivalent_eq_ok_true_iff.mp h).2
    -- the relation is transitive, so neighbours reach along the list, and symmetric
    have hPairwise : fs.Pairwise Formula.Equivalent := hNeighbours.pairwise
    intro v f hf g hg
    exact hPairwise.forall_of_forall (fun f _ => .refl f) hf hg v

end Limited

/-- Two formulas are different if and only if they are not equivalent, and both questions are
refused alike. -/
theorem allDifferent_eq_map_not (h : fs.length = 2) :
    allDifferent fs = (allEquivalent fs).map not := by
  match fs, h with
  | [f, g], _ =>
    show (noneEquivalent [(f, g)]).mapError _ = ((f.isEquivalent g).mapError _).map not
    rw [noneEquivalent]
    match f.isEquivalent g with
    | .ok true => rfl
    | .ok false => rfl
    | .error e => rfl

/-- **Comparing pair by pair.** The answer for a list is an error if a pair with too many variables
comes before every equal pair, and the error is about the first such pair; it is no if an equal pair
comes before every pair with too many variables, and yes if there are neither. If the joint
variables of the list keep to the limit, then all formulas are equivalent if and only if neighbours
are, whether all of them are different does not depend on their order, and of two formulas that is
the opposite question. -/
theorem allDifferent_settled_by_pairs (hTwo : 2 ≤ fs.length) :
    (∀ e, allDifferent fs = .error e ↔
      ∃ p : Places fs, p.FailsFirst ∧ e = .tooManyVariables ⟨p.count, maxVariables⟩) ∧
    (allDifferent fs = .ok false ↔ ∃ p : Places fs, p.EndsFirst) ∧
    (allDifferent fs = .ok true ↔ ∀ p : Places fs, ¬ p.IsOversized ∧ ¬ p.IsEqual) ∧
    ((fs.flatMap Formula.names).toFinset.card ≤ maxVariables →
      (allEquivalent fs = .ok true ↔ fs.IsChain fun f g => f.isEquivalent g = .ok true) ∧
      (∀ fs' : List Formula, fs'.Perm fs → allDifferent fs' = allDifferent fs) ∧
      (fs.length = 2 → allDifferent fs = (allEquivalent fs).map not)) := by
  rw [← size_jointVocabulary]
  refine ⟨fun e => allDifferent_eq_error_iff hTwo, allDifferent_eq_ok_false_iff hTwo,
    allDifferent_eq_ok_true_iff hTwo, fun hLimit => ⟨?_, ?_, allDifferent_eq_map_not⟩⟩
  · exact allEquivalent_eq_ok_true_iff_isChain hTwo hLimit
  · exact fun fs' => allDifferent_perm hTwo hLimit

/-- One list in two orders, with too many variables first and with an equal pair first, and two
formulas that may be listed in either order. -/
theorem allDifferent_settled_by_pairs_reordered :
    let f := Formula.var "A"
    let g := Formula.notVar "B"
    2 ≤ [f, .oversized, f].length ∧ 2 ≤ [f, f, .oversized].length ∧ 2 ≤ [f, g].length ∧
      allDifferent [f, .oversized, f] = .error (.tooManyVariables ⟨18, 16⟩) ∧
      allDifferent [f, f, .oversized] = .ok false ∧
      allDifferent [g, f] = allDifferent [f, g] ∧
      allDifferent [f, g] = (allEquivalent [f, g]).map not := by
  intro f g
  -- what settles both lists is the pair at the front
  have hTwo : 2 ≤ [f, .oversized, f].length := by decide
  have hTwo' : 2 ≤ [f, f, .oversized].length := by decide
  have hPair : 2 ≤ [f, g].length := by decide
  have hCount : (Places.front hTwo).count = 18 := by
    show ((Formula.var "A").names.toFinset ∪ Formula.oversized.names.toFinset).card = 18
    decide
  have hFails : (Places.front hTwo).FailsFirst := by
    have hOversized : (Places.front hTwo).IsOversized := by
      rw [Places.IsOversized, hCount]
      decide
    exact ⟨⟨hOversized, fun q _ => q.front_le hTwo⟩,
      fun q hEqual => hOversized.lt_of_le hEqual (q.front_le hTwo)⟩
  have hEnds : (Places.front hTwo').EndsFirst := by
    have hFits : ¬ (Places.front hTwo').IsOversized := by
      show ¬ 16 < ((Formula.var "A").names.toFinset ∪ (Formula.var "A").names.toFinset).card
      decide
    exact ⟨⟨⟨hFits, .refl f⟩, fun q _ => q.front_le hTwo'⟩, fun q _ => (q.front_le hTwo').not_gt⟩
  have hRefused := (allDifferent_settled_by_pairs hTwo).1 (.tooManyVariables ⟨18, 16⟩)
  have hEnded := (allDifferent_settled_by_pairs hTwo').2.1
  obtain ⟨-, hPerm, hNot⟩ := (allDifferent_settled_by_pairs hPair).2.2.2 (by decide)
  exact ⟨hTwo, hTwo', hPair, hRefused.mpr ⟨_, hFails, hCount ▸ rfl⟩, hEnded.mpr ⟨_, hEnds⟩,
    hPerm [g, f] (.swap ..), hNot rfl⟩

end Propositional
