import Propositional.Proofs.Generation

/-!
# Propositional — when generating comes to an end

Words may be rejected, and a source has patience for so many of them in a row. Nothing else can
keep a draw from having a result: a weighted choice among some members finds one, whatever the
weights are, if the source does not run out of patience (`Source.settles_chooseWeighted?`). And
a generator always has a connective to choose from, since the one that continues the chain is
put back where there is no other (`Generator.candidates_cases`).

Draws go forward on one stream, and patience is asked for from every place of it
(`Source.IsPatient`), so a source that is patient stays so. That a computation has a result
and that the source it leaves is patient are therefore shown together (`Source.Settles`).

Main result: `Generator.exists_generate_eq_ok`.
-/

namespace Propositional

namespace Source

variable {α β : Type} {s s' : Source} {n k : Nat}

/-- Wherever in its stream the source is, some number below a bound is drawn evenly before its
patience ends. -/
def IsPatient (s : Source) : Prop :=
  ∀ n place : Nat, 0 < n → n < UInt32.size →
    ∃ drawn, belowEvenly n s.patience { s with drawn := place } = some drawn

/-- Patience does not depend on how much is drawn already. -/
theorem IsPatient.of_drawn (h : s.IsPatient) (place : Nat) :
    IsPatient { s with drawn := place } := h

theorem IsPatient.flip (h : s.IsPatient) (chance : Chance) : (s.flip chance).2.IsPatient := by
  cases chance <;> exact h

theorem IsPatient.below (h : s.IsPatient) (n : Nat) (hPos : 0 < n) :
    (s.below n hPos).2.IsPatient := by
  unfold Source.below
  dsimp only
  split <;> exact h

/-- The computation has a result and leaves a patient source. -/
def Settles (drawn : Option (α × Source)) : Prop :=
  ∃ x s', drawn = some (x, s') ∧ s'.IsPatient

theorem settles_some (x : α) (h : s.IsPatient) : Settles (some (x, s)) := ⟨x, s, rfl, h⟩

theorem Settles.bind {drawn : Option (α × Source)} {next : α × Source → Option (β × Source)}
    (h : Settles drawn) (hNext : ∀ x s, s.IsPatient → Settles (next (x, s))) :
    Settles (drawn >>= next) := by
  obtain ⟨x, s, rfl, hPatient⟩ := h
  exact hNext x s hPatient

/-! ## Even draws -/

/-- What is drawn evenly is below the bound, and the source has only gone on. -/
theorem belowEvenly_eq_some {patience : Nat} (hPos : 0 < n)
    (h : belowEvenly n patience s = some (k, s')) :
    k < n ∧ ∃ place, s' = { s with drawn := place } := by
  -- each attempt takes one word; the number is that of the attempt that is accepted
  induction patience generalizing s with
  | zero => cases h
  | succ patience ih =>
    unfold belowEvenly at h
    dsimp only at h
    split at h
    next =>
      cases h
      exact ⟨mul_div_lt s.nextHalf_lt hPos, _, rfl⟩
    next =>
      obtain ⟨hLess, place, hPlace⟩ := ih h
      exact ⟨hLess, place, hPlace⟩

/-- A source that accepts every word needs no more patience than for one. -/
theorem isPatient_of_forall (hPatience : 0 < s.patience)
    (h : ∀ place, (s.word place).toNat / UInt32.size = 1) : s.IsPatient := by
  intro n place hPos hSize
  obtain ⟨patience, hSucc⟩ := Nat.exists_eq_succ_of_ne_zero (Nat.ne_of_gt hPatience)
  -- times an upper half of 1 the product is `n` itself, and what is refused lies below it
  have hAccepted : (UInt32.size - n) % n ≤ 1 * n % UInt32.size := by
    rw [Nat.one_mul, Nat.mod_eq_of_lt hSize]
    exact Nat.le_of_lt (Nat.mod_lt _ hPos)
  rw [hSucc, belowEvenly]
  simp only [nextHalf, next, h]
  rw [if_pos hAccepted]
  exact ⟨_, rfl⟩

/-! ## Choices -/

/-- From a list that is not empty a choice is made. -/
theorem settles_choose? (h : s.IsPatient) {xs : List α} (hSome : xs ≠ []) :
    Settles (s.choose? xs) := by
  have hLength : 0 < xs.length := List.length_pos_iff.mpr hSome
  unfold choose?
  rw [dif_pos hLength]
  exact settles_some _ (h.below _ hLength)

/-- A number below the sum of the weights finds its member. -/
theorem exists_atWeight?_eq_some {xs : List (α × UInt32)}
    (h : n < xs.foldr (fun x total => x.2.toNat + total) 0) : ∃ x, atWeight? xs n = some x := by
  induction xs generalizing n with
  | nil => cases h
  | cons first rest ih =>
    rw [List.foldr_cons] at h
    unfold atWeight?
    split
    next => exact ⟨_, rfl⟩
    next hMore => exact ih (by omega)

/-- **A choice is made.** If there is something to choose from, a patient source chooses, also where
the weights are not regarded. -/
theorem settles_chooseWeighted? (h : s.IsPatient) {xs : List (α × UInt32)} (hSome : xs ≠ []) :
    Settles (s.chooseWeighted? xs) := by
  unfold chooseWeighted?
  dsimp only
  split
  next => exact settles_choose? h (by simpa using hSome)
  -- the number drawn is below the sum of the weights, so it stands at one of them
  next hRegarded =>
    obtain ⟨hTotal, hFits⟩ := not_or.mp hRegarded
    have hPos := Nat.pos_of_ne_zero hTotal
    obtain ⟨⟨k, s'⟩, hDrawn⟩ := h _ s.drawn hPos (Nat.lt_of_not_le hFits)
    obtain ⟨hLess, place, rfl⟩ := belowEvenly_eq_some hPos hDrawn
    obtain ⟨x, hx⟩ := exists_atWeight?_eq_some hLess
    rw [hDrawn, Option.bind_eq_bind, Option.bind_some, hx]
    exact settles_some x (h.of_drawn place)

end Source

namespace Generator

variable {generator : Generator} {leaves : Nat} {s : Source}

/-! ## Candidates -/

/-- Weights aside, the candidates are all the connectives, or the parent's if all are the same, or
those that are left without the parent's. -/
theorem candidates_cases (generator : Generator) (parent : Option Connective)
    (available leaves : Nat) :
    (generator.candidates parent available leaves).map Prod.fst = generator.connectives ∨
    (∃ op, (∀ other ∈ generator.connectives, other = op) ∧
      (generator.candidates parent available leaves).map Prod.fst = [op]) ∨
    ∃ op, (generator.candidates parent available leaves).map Prod.fst =
        generator.connectives.filter (· != op) ∧
      generator.candidates parent available leaves ≠ [] := by
  unfold candidates
  dsimp only
  split
  next => exact .inl (by simp [Function.comp_def])
  next op =>
    split
    next =>
      split
      next hNone =>
        -- nothing is left without the connective of the parent, so it is put back
        refine .inr (.inl ⟨op, ?_, rfl⟩)
        simpa using hNone
      next others hSome =>
        refine .inr (.inr ⟨op, ?_, hSome⟩)
        rw [List.filter_map, List.map_map]
        exact List.map_id _
    next => exact .inl (by simp [Function.comp_def])

/-- There is always a connective left to choose from. -/
theorem candidates_ne_nil (hSome : generator.connectives ≠ []) (parent : Option Connective)
    (available leaves : Nat) : generator.candidates parent available leaves ≠ [] := by
  rcases generator.candidates_cases parent available leaves with
    hAll | ⟨back, -, hBack⟩ | ⟨left, -, hNe⟩
  · rw [← hAll] at hSome
    exact fun hNil => hSome (by rw [hNil]; rfl)
  · exact fun hNil => by simp [hNil] at hBack
  · exact hNe

/-! ## Generating -/

/-- A source stays patient when a name is picked. -/
theorem isPatient_pick (h : s.IsPatient) (pool : Pool) (excluded : List String) :
    (pool.pick excluded s).2.IsPatient := by
  unfold Pool.pick
  split
  next chosen hChosen =>
    have hSome : pool.available excluded ≠ [] :=
      List.ne_nil_of_mem (Source.mem_of_choose?_eq_some hChosen)
    obtain ⟨x, s', hDrawn, hPatient⟩ := Source.settles_choose? h hSome
    rw [hDrawn] at hChosen
    cases hChosen
    exact hPatient
  next => exact h.below _ pool.size_pos

theorem isPatient_literal (h : s.IsPatient) (generator : Generator) (name : String) :
    (generator.literal name s).2.IsPatient :=
  h.flip generator.negation

/-- **A patient source is enough.** Whatever it draws, each call comes to an answer. -/
theorem settles_build (hPatient : s.IsPatient) (hSome : generator.connectives ≠ []) (pool : Pool)
    (leaves : Nat) (parent : Option Connective) (excluded : List String) :
    Source.Settles (generator.build pool leaves parent excluded s) := by
  induction leaves using Nat.strongRecOn generalizing parent excluded s with
  | ind leaves ih =>
    rw [build]
    split
    next =>
      have hPatient₁ := isPatient_pick hPatient pool excluded
      exact Source.settles_some _ (isPatient_literal hPatient₁ generator (pool.pick excluded s).1)
    next hMore =>
      apply Source.Settles.bind
      · exact Source.settles_chooseWeighted? hPatient
          (generator.candidates_ne_nil hSome parent _ leaves)
      intro op s₁ hPatient₁
      have hPatient₂ := hPatient₁.below (leaves - 1) (by omega)
      -- what is drawn by now does not matter: either side has fewer leaves
      dsimp only
      generalize s₁.below (leaves - 1) _ = drawn at hPatient₂ ⊢
      obtain ⟨⟨cut, hCut⟩, s₂⟩ := drawn
      dsimp only
      split
      next =>
        apply Source.Settles.bind
        · exact ih (cut + 1) (by omega) (isPatient_pick hPatient₂ pool _) (some op) _
        rintro ⟨left, leftUsed⟩ s₃ hPatient₃
        exact Source.settles_some _ (isPatient_literal hPatient₃ generator _)
      next =>
        apply Source.Settles.bind
        · exact ih (cut + 1) (by omega) hPatient₂ (some op) _
        rintro ⟨left, leftUsed⟩ s₃ hPatient₃
        apply Source.Settles.bind
        · exact ih (leaves - (cut + 1)) (by omega) hPatient₃ (some op) _
        rintro ⟨right, rightUsed⟩ s₄ hPatient₄
        exact Source.settles_some _ hPatient₄

/-- Asked for a leaf or more, with a name and a connective to use, a generator has an answer for
every patient source. -/
theorem exists_generate_eq_ok {names : List String} (hLeaves : 0 < leaves) (hNames : names ≠ [])
    (hSome : generator.connectives ≠ []) (hPatient : s.IsPatient) :
    ∃ f s', generator.generate leaves names s = .ok (f, s') := by
  obtain ⟨name, hName⟩ := List.exists_mem_of_ne_nil names hNames
  have hSize : 0 < (Names.ofList names).size := Array.size_pos_of_mem (Names.mem_ofList.mpr hName)
  -- the three failures are excluded, and what is left is to build
  obtain ⟨pool, hPool⟩ : ∃ pool, Pool.ofList? names = some pool := ⟨_, dif_pos hSize⟩
  obtain ⟨⟨f, used⟩, s', hBuild, -⟩ := settles_build hPatient hSome pool leaves none []
  refine ⟨f, s', ?_⟩
  rw [generate, if_neg (Nat.ne_of_gt hLeaves), hPool]
  dsimp only
  rw [if_neg (by simpa using hSome), hBuild]

end Generator

end Propositional
