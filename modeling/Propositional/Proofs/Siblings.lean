import Propositional.Proofs.FreshNames

/-!
# Propositional — generated literals side by side

A right side of one leaf has its name before the left side is generated, and a left side of
one leaf has this name excluded. That keeps the two literals apart as long as some name is
left to pick: when all are excluded, a generator picks from all names again, and the reserved
one is then no longer avoided.

When this can happen follows from the rules of `Generator.Builds`. A chain that begins at the
node has all names but the reserved one, so with two names the node continues a chain from
above. It was chosen with fewer than two names available, so there is no other connective; and
the chain has used every name (`Builds.usesUp_of_equal_siblings`).

Main results: `Generator.generated_siblings_differ`, and that the exception does occur
(`Generator.exists_generated_siblings_equal`).
-/

namespace Propositional.Generator

open Formula

variable {generator : Generator} {pool : Pool} {leaves : Nat} {parent : Option Connective}
variable {op : Connective} {f : Formula} {excluded used : List String} {name : String}

/-! ## Names that are used -/

theorem mem_of_mem_passedOn {side : Formula} (h : name ∈ passedOn op side used) : name ∈ used := by
  unfold passedOn at h
  split at h
  · exact h
  · cases h

/-- A call uses up names of its answer only. -/
theorem Builds.mem_names_of_mem_used (h : generator.Builds pool leaves parent excluded f used)
    (hMem : name ∈ used) : name ∈ f.names := by
  induction h with
  | literal => exact hMem
  | reserving _ _ _ _ _ ih =>
    rw [Formula.join, names_binary, List.mem_append]
    -- the reserved name stands on the right, and the left side passes on its own
    rcases List.mem_append.mp hMem with hReserved | hPassed
    · exact .inr (List.mem_singleton.mpr (eq_of_mem_reserved hReserved))
    · exact .inl (ih (mem_of_mem_passedOn hPassed))
  | dividing _ _ _ _ _ ihLeft ihRight =>
    rw [Formula.join, names_binary, List.mem_append]
    rcases List.mem_append.mp hMem with hPassed | hPassed
    · exact .inl (ihLeft (mem_of_mem_passedOn hPassed))
    · exact .inr (ihRight (mem_of_mem_passedOn hPassed))

/-! ## Names that run out -/

/-- There is one idempotent connective and no other, and every name of the pool is used: it is
excluded already, or it occurs in the formula. -/
structure UsesUp (generator : Generator) (pool : Pool) (op : Connective) (excluded : List String)
    (f : Formula) : Prop where
  isIdempotent : op.isIdempotent = true
  only : ∀ other ∈ generator.connectives, other = op
  used : ∀ name ∈ pool.names, name ∈ excluded ∨ name ∈ f.names

/-- What a side has excluded was excluded before, or is a name of the whole. -/
theorem UsesUp.of_side {side : Formula} {excludedSide : List String}
    (h : generator.UsesUp pool op excludedSide side)
    (hExcluded : ∀ name ∈ excludedSide, name ∈ excluded ∨ name ∈ f.names)
    (hNames : ∀ name ∈ side.names, name ∈ f.names) : generator.UsesUp pool op excluded f := by
  refine ⟨h.isIdempotent, h.only, ?_⟩
  intro name hMem
  rcases h.used name hMem with hSide | hSide
  · exact hExcluded name hSide
  · exact .inr (hNames name hSide)

/-- A left literal has the name that the right one has reserved: everything else was excluded, so
the chain goes on from above although fewer than two names were available. -/
theorem usesUp_of_mayPick (hNodup : pool.names.toList.Nodup) (hTwo : 2 ≤ pool.names.size)
    (hOp : generator.MayChoose parent (pool.available excluded).length leaves op)
    (hName : pool.MayPick (excludedBeside op name 1 (inherited op parent excluded)) name)
    (n n' : Bool) :
    generator.UsesUp pool op excluded (.join op (.literal name n) (.literal name n')) := by
  have hNone : pool.available (excludedBeside op name 1 (inherited op parent excluded)) = [] :=
    hName.exhausted (mem_excludedBeside (.inr rfl) _)
  have hFree := length_available_excludedBeside hNodup op name 1 (inherited op parent excluded)
  rw [hNone, List.length_nil] at hFree
  obtain ⟨hIdempotent, rfl⟩ : op.isIdempotent = true ∧ parent = some op := by
    by_contra hStarts
    -- a new chain has every name available
    rw [inherited, if_neg hStarts, Pool.length_available_nil] at hFree
    omega
  have hChain : inherited op (some op) excluded = excluded := if_pos ⟨hIdempotent, rfl⟩
  rw [hChain] at hFree hNone
  refine ⟨hIdempotent, ?_, ?_⟩
  · by_contra hOther
    push Not at hOther
    have hTwo' := hOp.two_le_available hIdempotent hOther
    omega
  · intro other hMem
    have hExcluded : other ∈ excludedBeside op name 1 excluded := by
      by_contra hNotMem
      have hAvailable := Pool.mem_available.mpr ⟨hMem, hNotMem⟩
      rw [hNone] at hAvailable
      cases hAvailable
    rcases eq_or_mem_of_mem_excludedBeside hExcluded with rfl | hExcluded
    · exact .inr (by simp [Formula.join])
    · exact .inl hExcluded

/-- Two literals of one name stand side by side only where all names are used up. -/
theorem Builds.usesUp_of_equal_siblings (hNodup : pool.names.toList.Nodup)
    (hTwo : 2 ≤ pool.names.size) (h : generator.Builds pool leaves parent excluded f used)
    {n n' negated : Bool}
    (hSub : Subformula (.binary op (.literal name n) (.literal name n') negated) f) :
    generator.UsesUp pool op excluded f := by
  induction h with
  | literal => cases hSub
  | reserving _ _ hOp _ hLeft ih =>
    cases hSub with
    | refl =>
      cases hLeft with
      | literal _ hName => exact usesUp_of_mayPick hNodup hTwo hOp hName n n'
    | left hSub =>
      apply (ih hSub).of_side
      · intro other hExcluded
        rcases eq_or_mem_of_mem_excludedBeside hExcluded with rfl | hChain
        · exact .inr (by simp [Formula.join])
        · exact .inl (mem_of_mem_inherited hChain)
      · simp +contextual [Formula.join]
    | right hSub => cases hSub
  | dividing _ hRightLeaves _ hLeft hRight ihLeft ihRight =>
    cases hSub with
    | refl =>
      -- the right side has more than one leaf
      cases hRight
      exact absurd hRightLeaves (Nat.lt_irrefl 1)
    | left hSub =>
      apply (ihLeft hSub).of_side
      · intro other hChain
        exact .inl (mem_of_mem_inherited hChain)
      · simp +contextual [Formula.join]
    | right hSub =>
      apply (ihRight hSub).of_side
      · intro other hExcluded
        rcases List.mem_append.mp hExcluded with hPassed | hChain
        · -- the left side has passed the name on, so it occurs there
          have hMem := hLeft.mem_names_of_mem_used (mem_of_mem_passedOn hPassed)
          exact .inr (by simp [Formula.join, hMem])
        · exact .inl (mem_of_mem_inherited hChain)
      · simp +contextual [Formula.join]

/-! ## Runs -/

/-- **Literals side by side differ** in every formula that is generated from two names or more,
whatever is drawn, with one exception: a single idempotent connective is all there is, there are
more leaves than names, and every name occurs. -/
theorem generated_siblings_differ {names : List String} {s s' : Source}
    (h : generator.generate leaves names s = .ok (f, s')) (hTwo : 2 ≤ names.toFinset.card)
    {name' : String} {n n' negated : Bool}
    (hSub : Subformula (.binary op (.literal name n) (.literal name' n') negated) f) :
    name ≠ name' ∨ op.isIdempotent = true ∧ (∀ other ∈ generator.connectives, other = op) ∧
      names.toFinset.card < leaves ∧ ∀ other ∈ names, other ∈ f.names := by
  obtain ⟨pool, used, hNames, hBuilds⟩ := exists_builds_of_generate_eq_ok h
  have hNodup : pool.names.toList.Nodup := hNames ▸ (Names.ordered_ofList names).nodup
  have hSize : pool.names.size = names.toFinset.card := hNames ▸ Names.size_ofList names
  by_cases hEqual : name = name'
  · subst hEqual
    obtain ⟨hIdempotent, hOnly, hUsed⟩ :=
      hBuilds.usesUp_of_equal_siblings hNodup (by omega) hSub
    refine .inr ⟨hIdempotent, hOnly, ?_, ?_⟩
    · by_contra hEnough
      -- with a name for each leaf the chain would not have the name twice
      have hSuffices : generator.Suffices pool leaves [] := by
        have hAll := pool.length_available_nil
        exact .inl (by omega)
      have hDistinct := (hBuilds.fresh hNodup hSuffices).distinctChains
      have hTwice := hDistinct op _ _ negated hSub hIdempotent
      simp [chainNames] at hTwice
    · intro other hMem
      have hPool : other ∈ pool.names := by rwa [hNames, Names.mem_ofList]
      simpa using hUsed other hPool
  · exact .inl hEqual

/-- Two names are enough for any number of leaves if there is another connective. -/
theorem generated_siblings_differ_mixed :
    let s : Source := ⟨fun _ => 0, 0, 1⟩
    let mixed : Generator := { connectives := [.and, .xor], negation := .never }
    let pair := Formula.join .and (var "B") (var "A")
    let f := Formula.join .and (var "A") (.join .xor (var "A") pair)
    mixed.generate 4 ["B", "A", "B"] s = .ok (f, { s with drawn := 14 }) ∧
      2 ≤ ["B", "A", "B"].toFinset.card ∧ Subformula pair f ∧ "B" ≠ "A" := by
  intro s mixed pair f
  have hRun : mixed.generate 4 ["B", "A", "B"] s = .ok (f, { s with drawn := 14 }) := by cbv
  have hTwo : 2 ≤ ["B", "A", "B"].toFinset.card := by decide
  have hSub : Subformula pair f := .right (.right .refl)
  have hDiffer := generated_siblings_differ hRun hTwo hSub
  refine ⟨hRun, hTwo, hSub, ?_⟩
  -- XOR is allowed too, so the exception does not apply
  rcases hDiffer with hNe | ⟨-, hOnly, -, -⟩
  · exact hNe
  · cases hOnly .xor (by decide)

/-- The exception occurs: with conjunction alone, two names and three leaves, the left literal of
the inner conjunction finds both names excluded, picks from both again, and takes the one that is
reserved for the right literal. -/
theorem exists_generated_siblings_equal :
    let s : Source := ⟨fun place => if place < 7 then 0 else 0xFFFFFFFFFFFFFFFF, 0, 1⟩
    let conjunctive : Generator := { connectives := [.and], negation := .never }
    2 ≤ ["A", "B"].toFinset.card ∧
      ∃ f s', conjunctive.generate 3 ["A", "B"] s = .ok (f, s') ∧
        Subformula (.join .and (var "B") (var "B")) f := by
  intro s conjunctive
  have hRun : conjunctive.generate 3 ["A", "B"] s =
      .ok (.join .and (var "A") (.join .and (var "B") (var "B")), { s with drawn := 10 }) := by cbv
  exact ⟨by decide, _, _, hRun, .right .refl⟩

end Propositional.Generator
