import Mathlib.Data.List.Permutation
import Propositional.Proofs.Generation
import Propositional.Proofs.Rows

/-!
# Propositional — generated chains do not repeat a name

The literals that a chain of one connective joins have names, marks on the joins left out of
account (`Formula.chainNames`). Where the connective is idempotent, a name that comes twice in a
chain says nothing new or makes the whole chain constant; `Formula.DistinctChains` says that no
chain of the formula has such a name.

A generator keeps the literals of a conjunction or disjunction chain apart by passing names
along: what the chain has used goes down as the excluded names, and what a side adds to the
chain comes back up. Two facts about `Generator.Builds` say that this bookkeeping is right:

* what comes back up is the names of the chain, each as often as it occurs there
  (`Builds.passedOn_perm`);
* if names suffice, the names of the chain differ from each other and from the excluded ones
  (`Builds.fresh`).

Names suffice (`Generator.Suffices`) if there is one for each leaf, or if the chain can be broken
off before they run out. It can unless one idempotent connective is all there is: with fewer
than two names available, a chain is continued only for want of another connective
(`MayChoose.two_le_available`).

Main result: `Generator.generated_chains_distinct`. With a single name no chain is continued
at all (`Builds.sides_ne`).
-/

namespace Propositional

namespace Formula

/-- The names of the literals that belong to the chain of a connective at the root. -/
def chainNames (op : Connective) : Formula → List String
  | literal name _ => [name]
  | binary op' a b _ => if op' = op then a.chainNames op ++ b.chainNames op else []

/-- In every chain of an idempotent connective the names of the literals differ. -/
def DistinctChains (f : Formula) : Prop :=
  ∀ op a b negated, Subformula (binary op a b negated) f → op.isIdempotent = true →
    ((binary op a b negated).chainNames op).Nodup

end Formula

/-! ## How many names are available -/

namespace Pool

variable {pool : Pool} {excluded excluded' : List String}

theorem length_available_nil (pool : Pool) : (pool.available []).length = pool.names.size := by
  simp [available]

/-- The fewer names are excluded, the more are available. -/
theorem length_available_le (pool : Pool) (h : ∀ name ∈ excluded', name ∈ excluded) :
    (pool.available excluded).length ≤ (pool.available excluded').length := by
  apply List.Sublist.length_le
  apply List.monotone_filter_right
  intro name
  simpa using mt (h name)

theorem length_available_le_size (pool : Pool) (excluded : List String) :
    (pool.available excluded).length ≤ pool.names.size := by
  rw [← pool.length_available_nil]
  exact pool.length_available_le nofun

/-- Another excluded name makes at most one name unavailable. -/
theorem length_available_cons (hNodup : pool.names.toList.Nodup) (name : String)
    (excluded : List String) :
    (pool.available excluded).length ≤ (pool.available (name :: excluded)).length + 1 := by
  -- in a pool without repetitions, excluding a name takes one entry out
  have hErase : pool.available (name :: excluded) = (pool.available excluded).erase name := by
    unfold available
    rw [List.Nodup.erase_eq_filter (hNodup.filter _), List.filter_filter]
    congr 1
    funext other
    simp [bne, Bool.beq_eq_decide_eq]
  have hLength : (pool.available excluded).length - 1 ≤
      ((pool.available excluded).erase name).length := List.le_length_erase
  rw [hErase]
  omega

/-- Excluding more names costs at most one name each. -/
theorem length_available_append (hNodup : pool.names.toList.Nodup) (used excluded : List String) :
    (pool.available excluded).length ≤
      (pool.available (used ++ excluded)).length + used.length := by
  induction used with
  | nil => exact Nat.le_refl _
  | cons name used ih =>
    have hName := length_available_cons hNodup name (used ++ excluded)
    rw [List.cons_append, List.length_cons]
    omega

/-- A name that is picked while one is available is not excluded. -/
theorem MayPick.not_mem {name : String} (h : pool.MayPick excluded name)
    (hPos : 0 < (pool.available excluded).length) : name ∉ excluded := by
  intro hMem
  rw [h.exhausted hMem] at hPos
  exact Nat.lt_irrefl 0 hPos

end Pool

/-! ## Chains -/

namespace Formula

variable {op : Connective} {a b : Formula}

/-- The chain of a connective at the root goes on into both sides. -/
theorem chainNames_join (op : Connective) (a b : Formula) :
    (join op a b).chainNames op = a.chainNames op ++ b.chainNames op := by
  rw [join, chainNames, if_pos rfl]

theorem chainNames_join_of_ne {other : Connective} (h : other ≠ op) (a b : Formula) :
    (join other a b).chainNames op = [] := by
  rw [join, chainNames, if_neg h]

theorem distinctChains_literal (name : String) (negated : Bool) :
    (literal name negated).DistinctChains := by
  intro op a b negated' hSub
  cases hSub

/-- Two sides without repetitions need only the chain of the root to have none. -/
theorem DistinctChains.join (ha : a.DistinctChains) (hb : b.DistinctChains)
    (hRoot : op.isIdempotent = true → ((join op a b).chainNames op).Nodup) :
    (join op a b).DistinctChains := by
  intro op' a' b' negated hSub hIdempotent
  -- a chain below the root lies in one of the sides
  cases hSub with
  | refl => exact hRoot hIdempotent
  | left h => exact ha op' a' b' negated h hIdempotent
  | right h => exact hb op' a' b' negated h hIdempotent

end Formula

namespace Generator

open Formula

variable {generator : Generator} {pool : Pool} {leaves available : Nat}
variable {parent : Option Connective} {op : Connective} {f : Formula}
variable {excluded used : List String} {name : String}

/-! ## Candidates -/

/-- With fewer than two names available, a chain is continued only if there is no other
connective. -/
theorem MayChoose.two_le_available (h : generator.MayChoose (some op) available leaves op)
    (hIdempotent : op.isIdempotent = true) (hOther : ∃ other ∈ generator.connectives, other ≠ op) :
    2 ≤ available := by
  by_contra hFew
  have hScarce : op.isIdempotent = true ∧ available < 2 := ⟨hIdempotent, by omega⟩
  unfold MayChoose candidates at h
  dsimp only at h
  rw [if_pos hScarce] at h
  split at h
  next hNone =>
    -- every candidate continues the chain
    obtain ⟨other, hMem, hNe⟩ := hOther
    simp only [List.filter_eq_nil_iff, List.mem_map, forall_exists_index, and_imp,
      forall_apply_eq_imp_iff₂, bne_iff_ne, ne_eq, Decidable.not_not] at hNone
    exact hNe (hNone other hMem)
  next =>
    obtain ⟨candidate, hMem, hEq⟩ := List.mem_map.mp h
    simpa [hEq] using (List.mem_filter.mp hMem).2

/-! ## The names that come back up -/

theorem extendsChain_literal (hIdempotent : op.isIdempotent = true) (name : String)
    (negated : Bool) : extendsChain op (.literal name negated) = true := by
  simp [extendsChain, hIdempotent, isLiteral]

theorem extendsChain_join {other : Connective} {a b : Formula} :
    extendsChain op (join other a b) = true ↔ op.isIdempotent = true ∧ other = op := by
  simp [extendsChain, isLiteral, connective?, join]

/-- What a side passes on is the names of its chain. -/
theorem Builds.passedOn_perm (h : generator.Builds pool leaves parent excluded f used)
    (hIdempotent : op.isIdempotent = true) : (passedOn op f used).Perm (f.chainNames op) := by
  induction h with
  | literal negated =>
    rw [passedOn, if_pos (extendsChain_literal hIdempotent _ negated)]
    exact .refl _
  | @reserving _ _ _ op' name left leftUsed negated _ _ _ _ ih =>
    -- with another root the chain ends here, and nothing is passed on
    by_cases hOp : op' = op
    · subst hOp
      have hReserved : reserved op' name = [name] := if_pos hIdempotent
      rw [passedOn, if_pos (extendsChain_join.mpr ⟨hIdempotent, rfl⟩), chainNames_join, hReserved]
      exact List.perm_append_comm.trans (ih.append_right [name])
    · rw [passedOn, if_neg (fun hExtends => hOp (extendsChain_join.mp hExtends).2),
        chainNames_join_of_ne hOp]
  | @dividing _ _ _ _ op' left right leftUsed rightUsed _ _ _ _ _ ihLeft ihRight =>
    by_cases hOp : op' = op
    · subst hOp
      rw [passedOn, if_pos (extendsChain_join.mpr ⟨hIdempotent, rfl⟩), chainNames_join]
      exact ihLeft.append ihRight
    · rw [passedOn, if_neg (fun hExtends => hOp (extendsChain_join.mp hExtends).2),
        chainNames_join_of_ne hOp]

/-- No more names are passed on than a side has used. -/
theorem length_passedOn_le (op : Connective) (side : Formula) (used : List String) :
    (passedOn op side used).length ≤ used.length := by
  unfold passedOn
  split
  · exact Nat.le_refl _
  · exact Nat.zero_le _

theorem length_reserved_le (op : Connective) (name : String) : (reserved op name).length ≤ 1 := by
  unfold reserved
  split <;> simp

/-- A call uses no more names than it generates leaves. -/
theorem Builds.length_used_le (h : generator.Builds pool leaves parent excluded f used) :
    used.length ≤ leaves := by
  induction h with
  | literal => exact Nat.le_refl 1
  -- the reserved name is paid for by the leaf that takes it
  | @reserving _ _ _ op name left leftUsed _ _ _ _ _ ih =>
    have hReserved := length_reserved_le op name
    have hPassed := length_passedOn_le op left leftUsed
    rw [List.length_append]
    omega
  | @dividing _ _ _ _ op left right leftUsed rightUsed _ _ _ _ _ ihLeft ihRight =>
    have hLeft := length_passedOn_le op left leftUsed
    have hRight := length_passedOn_le op right rightUsed
    rw [List.length_append]
    omega

/-! ## Chains of a run -/

/-- Some connective is at hand to break off the chain of an idempotent one. -/
def Varied (generator : Generator) : Prop :=
  ∀ op : Connective, op.isIdempotent = true → ∃ other ∈ generator.connectives, other ≠ op

/-- Names suffice for so many leaves: there is an available name for each, or chains can be broken
off, and a single leaf has a name. -/
def Suffices (generator : Generator) (pool : Pool) (leaves : Nat) (excluded : List String) : Prop :=
  leaves ≤ (pool.available excluded).length ∨
    generator.Varied ∧ 2 ≤ pool.names.size ∧ (leaves = 1 → 0 < (pool.available excluded).length)

theorem mem_of_mem_inherited (h : name ∈ inherited op parent excluded) : name ∈ excluded := by
  unfold inherited at h
  split at h
  · exact h
  · cases h

theorem eq_of_mem_reserved {other : String} (h : other ∈ reserved op name) : other = name := by
  unfold reserved at h
  split at h
  · exact List.mem_singleton.mp h
  · cases h

theorem mem_excludedBeside_of_mem {other : String} {chain : List String} (h : other ∈ chain) :
    other ∈ excludedBeside op name leaves chain := by
  unfold excludedBeside
  split <;> simp [h]

/-- The reserved name is excluded in a chain, and from a side that is a leaf. -/
theorem mem_excludedBeside (h : op.isIdempotent = true ∨ leaves = 1) (chain : List String) :
    name ∈ excludedBeside op name leaves chain := by
  unfold excludedBeside reserved
  split <;> grind

/-- Beside a reserved name, nothing else is excluded but what the chain has used. -/
theorem eq_or_mem_of_mem_excludedBeside {other : String} {chain : List String}
    (h : other ∈ excludedBeside op name leaves chain) : other = name ∨ other ∈ chain := by
  unfold excludedBeside at h
  split at h <;> simp only [List.mem_cons, List.mem_append] at h
  · rcases h with hName | hReserved | hChain
    · exact .inl hName
    · exact .inl (eq_of_mem_reserved hReserved)
    · exact .inr hChain
  · exact h.imp eq_of_mem_reserved id

/-- So the left side has to do without one name more. -/
theorem length_available_excludedBeside (hNodup : pool.names.toList.Nodup) (op : Connective)
    (name : String) (leaves : Nat) (chain : List String) :
    (pool.available chain).length ≤
      (pool.available (excludedBeside op name leaves chain)).length + 1 := by
  have hCons := Pool.length_available_cons hNodup name chain
  -- beside a side, only the reserved name is excluded on top of the chain
  have hMore : (pool.available (name :: chain)).length ≤
      (pool.available (excludedBeside op name leaves chain)).length := by
    apply pool.length_available_le
    intro other hMem
    exact List.mem_cons.mpr (eq_or_mem_of_mem_excludedBeside hMem)
  omega

/-- Names go on to suffice where there still is one for each leaf if there was before. -/
theorem Suffices.of_le {leaves' : Nat} {excluded' : List String}
    (h : generator.Suffices pool leaves excluded)
    (hEnough : leaves ≤ (pool.available excluded).length →
      leaves' ≤ (pool.available excluded').length)
    (hOne : leaves' = 1 → 0 < (pool.available excluded').length) :
    generator.Suffices pool leaves' excluded' := by
  rcases h with hEach | ⟨hVaried, hSize, -⟩
  · exact .inl (hEnough hEach)
  · exact .inr ⟨hVaried, hSize, hOne⟩

/-- A new node has names for its chain, and at least two of them. -/
theorem Suffices.inherited (h : generator.Suffices pool leaves excluded) (hTwo : 2 ≤ leaves)
    (hOp : generator.MayChoose parent (pool.available excluded).length leaves op) :
    2 ≤ (pool.available (inherited op parent excluded)).length ∧
      generator.Suffices pool leaves (Generator.inherited op parent excluded) := by
  have hMore : (pool.available excluded).length ≤
      (pool.available (Generator.inherited op parent excluded)).length :=
    pool.length_available_le fun _ => mem_of_mem_inherited
  -- either there are names for all leaves, or two for every chain that goes on
  rcases h with hEnough | ⟨hVaried, hSize, -⟩
  · exact ⟨by omega, .inl (by omega)⟩
  · suffices hFree : 2 ≤ (pool.available (Generator.inherited op parent excluded)).length from
      ⟨hFree, .inr ⟨hVaried, hSize, fun _ => by omega⟩⟩
    by_cases hContinues : op.isIdempotent = true ∧ parent = some op
    · -- the chain goes on, so two names were left for it
      obtain ⟨hIdempotent, rfl⟩ := hContinues
      have hTwo' := hOp.two_le_available hIdempotent (hVaried op hIdempotent)
      omega
    · rw [Generator.inherited, if_neg hContinues, Pool.length_available_nil]
      exact hSize

/-- What a call answers if names suffice: no chain repeats a name, and a chain that was begun above
takes no excluded one. -/
structure Fresh (parent : Option Connective) (excluded : List String) (f : Formula) : Prop where
  distinctChains : f.DistinctChains
  nodup : ∀ op : Connective, op.isIdempotent = true → (f.chainNames op).Nodup
  not_mem : ∀ op : Connective, op.isIdempotent = true → parent = some op →
    ∀ name ∈ f.chainNames op, name ∉ excluded

/-- A literal is fresh if its name is not excluded. -/
theorem fresh_literal (negated : Bool) (hName : name ∉ excluded) :
    Fresh parent excluded (.literal name negated) := by
  refine ⟨distinctChains_literal name negated, ?_, ?_⟩
  · intro op _
    exact List.nodup_singleton name
  · intro op _ _ other hMem
    rw [List.mem_singleton.mp hMem]
    exact hName

/-- Two sides under a connective are as they should be if the names of the chain that they share
differ, on each side and between the sides, and avoid those of the chain so far. -/
theorem Fresh.join {a b : Formula} {excludedLeft excludedRight : List String}
    (ha : Fresh (some op) excludedLeft a) (hb : Fresh (some op) excludedRight b)
    (hLeft : ∀ name ∈ inherited op parent excluded, name ∈ excludedLeft)
    (hRight : ∀ name ∈ inherited op parent excluded, name ∈ excludedRight)
    (hDisjoint : op.isIdempotent = true → (a.chainNames op).Disjoint (b.chainNames op)) :
    Fresh parent excluded (.join op a b) := by
  have hNodup : op.isIdempotent = true → ((Formula.join op a b).chainNames op).Nodup := by
    intro hIdempotent
    rw [chainNames_join, List.nodup_append']
    exact ⟨ha.nodup op hIdempotent, hb.nodup op hIdempotent, hDisjoint hIdempotent⟩
  refine ⟨ha.distinctChains.join hb.distinctChains hNodup, ?_, ?_⟩
  · intro op' hIdempotent
    by_cases hOp : op = op'
    · subst hOp
      exact hNodup hIdempotent
    · rw [chainNames_join_of_ne hOp]
      exact List.nodup_nil
  · intro op' hIdempotent hParent name hMem hExcluded
    by_cases hOp : op = op'
    · subst hOp
      -- the chain goes on from the parent, so both sides avoid what is excluded
      have hInherited : name ∈ inherited op parent excluded := by
        rwa [inherited, if_pos ⟨hIdempotent, hParent⟩]
      rw [chainNames_join, List.mem_append] at hMem
      rcases hMem with hMem | hMem
      · exact ha.not_mem op hIdempotent rfl name hMem (hLeft name hInherited)
      · exact hb.not_mem op hIdempotent rfl name hMem (hRight name hInherited)
    · rw [chainNames_join_of_ne hOp] at hMem
      cases hMem

/-- **Chains of a run.** If names suffice, no chain repeats a name. -/
theorem Builds.fresh (hNodup : pool.names.toList.Nodup)
    (h : generator.Builds pool leaves parent excluded f used)
    (hSuffices : generator.Suffices pool leaves excluded) : Fresh parent excluded f := by
  induction h with
  | @literal parent excluded name negated hName =>
    have hFree : 0 < (pool.available excluded).length := by
      rcases hSuffices with hEnough | ⟨-, -, hFree⟩
      · exact hEnough
      · exact hFree rfl
    exact fresh_literal negated (hName.not_mem hFree)
  | @reserving leaves parent excluded op name left leftUsed negated hLeaves hOp hName _ ih =>
    obtain ⟨hTwo, hChain⟩ := hSuffices.inherited (Nat.succ_le_succ hLeaves) hOp
    -- the right literal takes a name first; what is left suffices for the left side
    have hRight : Fresh (some op) (inherited op parent excluded) (.literal name negated) :=
      fresh_literal negated (hName.not_mem (by omega))
    have hFree := length_available_excludedBeside hNodup op name leaves
      (inherited op parent excluded)
    have hSufficesLeft : generator.Suffices pool leaves
        (excludedBeside op name leaves (inherited op parent excluded)) :=
      hChain.of_le (by omega) (by omega)
    have hLeft := ih hSufficesLeft
    refine hLeft.join hRight (fun _ => mem_excludedBeside_of_mem) (fun _ hMem => hMem) ?_
    intro hIdempotent other hMemLeft hMemRight
    obtain rfl : other = name := List.mem_singleton.mp hMemRight
    exact hLeft.not_mem op hIdempotent rfl other hMemLeft
      (mem_excludedBeside (.inl hIdempotent) _)
  | @dividing leftLeaves rightLeaves parent excluded op left right leftUsed rightUsed hLeftLeaves
      hRightLeaves hOp hBuildsLeft _ ihLeft ihRight =>
    obtain ⟨hTwo, hChain⟩ := hSuffices.inherited (by omega) hOp
    -- the left side uses no more names than it has leaves; what is left suffices for the right one
    have hUsed : (passedOn op left leftUsed).length ≤ leftLeaves :=
      Nat.le_trans (length_passedOn_le op left leftUsed) hBuildsLeft.length_used_le
    have hFree := Pool.length_available_append hNodup (passedOn op left leftUsed)
      (inherited op parent excluded)
    have hSufficesLeft : generator.Suffices pool leftLeaves (inherited op parent excluded) :=
      hChain.of_le (by omega) (by omega)
    have hSufficesRight : generator.Suffices pool rightLeaves
        (passedOn op left leftUsed ++ inherited op parent excluded) :=
      hChain.of_le (by omega) (by omega)
    have hRight := ihRight hSufficesRight
    refine (ihLeft hSufficesLeft).join hRight (fun _ hMem => hMem)
      (fun _ => List.mem_append_right _) ?_
    intro hIdempotent name hMemLeft hMemRight
    apply hRight.not_mem op hIdempotent rfl name hMemRight
    exact List.mem_append_left _ ((hBuildsLeft.passedOn_perm hIdempotent).mem_iff.mpr hMemLeft)

/-! ## A single name -/

/-- With one name and another connective, no side continues the chain of an idempotent
connective. -/
theorem Builds.connective?_ne (h : generator.Builds pool leaves (some op) excluded f used)
    (hSize : pool.names.size < 2) (hVaried : generator.Varied)
    (hIdempotent : op.isIdempotent = true) : f.connective? ≠ some op := by
  have hFew := pool.length_available_le_size excluded
  -- a chain goes on only where two names are left, and the pool has fewer
  have hScarce : ∀ leaves,
      ¬ generator.MayChoose (some op) (pool.available excluded).length leaves op := by
    intro leaves hOp
    have hTwo := hOp.two_le_available hIdempotent (hVaried op hIdempotent)
    omega
  intro hContinues
  cases h with
  | literal => cases hContinues
  | reserving _ _ hOp =>
    cases hContinues
    exact hScarce _ hOp
  | dividing _ _ hOp =>
    cases hContinues
    exact hScarce _ hOp

/-- With fewer than two names no connective stands under itself if it is idempotent. -/
theorem Builds.sides_ne (h : generator.Builds pool leaves parent excluded f used)
    (hSize : pool.names.size < 2) (hVaried : generator.Varied) {a b : Formula} {negated : Bool}
    (hSub : Subformula (.binary op a b negated) f) (hIdempotent : op.isIdempotent = true) :
    a.connective? ≠ some op ∧ b.connective? ≠ some op := by
  -- at the root by the lemma before, further down by the induction
  induction h with
  | literal => cases hSub
  | reserving _ _ _ _ hLeft ih =>
    cases hSub with
    | refl => exact ⟨hLeft.connective?_ne hSize hVaried hIdempotent, nofun⟩
    | left hSub => exact ih hSub
    | right hSub => cases hSub
  | dividing _ _ _ hLeft hRight ihLeft ihRight =>
    cases hSub with
    | refl =>
      exact ⟨hLeft.connective?_ne hSize hVaried hIdempotent,
        hRight.connective?_ne hSize hVaried hIdempotent⟩
    | left hSub => exact ihLeft hSub
    | right hSub => exact ihRight hSub

/-! ## Runs -/

/-- With two different connectives at hand, every chain can be broken off. -/
theorem varied_of_ne {op op' : Connective} (h : op ∈ generator.connectives)
    (h' : op' ∈ generator.connectives) (hNe : op ≠ op') : generator.Varied := by
  intro chain _
  by_cases hOp : op = chain
  · exact ⟨op', h', fun hOp' => hNe (hOp.trans hOp'.symm)⟩
  · exact ⟨op, h, hOp⟩

/-- **Generated chains do not repeat a name**, whatever is drawn and however the choices are
weighted, if there is a name for each leaf or if there are two names and something else than one
idempotent connective. With a single name and two connectives, an idempotent connective is no side
of itself. -/
theorem generated_chains_distinct {names : List String} {s s' : Source}
    (h : generator.generate leaves names s = .ok (f, s')) :
    ((leaves ≤ names.toFinset.card ∨ 2 ≤ names.toFinset.card ∧
        ¬ ∃ op : Connective, op.isIdempotent = true ∧ ∀ other ∈ generator.connectives, other = op) →
      f.DistinctChains) ∧
    ((names.toFinset.card = 1 ∧
        ∃ op ∈ generator.connectives, ∃ op' ∈ generator.connectives, op ≠ op') →
      ∀ op a b negated, Subformula (.binary op a b negated) f → op.isIdempotent = true →
        a.connective? ≠ some op ∧ b.connective? ≠ some op) := by
  obtain ⟨pool, used, hNames, hBuilds⟩ := exists_builds_of_generate_eq_ok h
  have hNodup : pool.names.toList.Nodup := hNames ▸ (Names.ordered_ofList names).nodup
  have hSize : pool.names.size = names.toFinset.card := hNames ▸ Names.size_ofList names
  have hAll := pool.length_available_nil
  constructor
  · intro hCase
    -- either condition leaves names enough for every chain
    have hSuffices : generator.Suffices pool leaves [] := by
      rcases hCase with hEnough | ⟨hTwo, hNotOne⟩
      · exact .inl (by omega)
      · push Not at hNotOne
        exact .inr ⟨hNotOne, by omega, fun _ => by omega⟩
    exact (hBuilds.fresh hNodup hSuffices).distinctChains
  · rintro ⟨hOne, op₁, hMem₁, op₂, hMem₂, hNe⟩ op a b negated hSub hIdempotent
    have hVaried : generator.Varied := varied_of_ne hMem₁ hMem₂ hNe
    exact hBuilds.sides_ne (by omega) hVaried hSub hIdempotent

/-- Fewer names than leaves: the chains are broken off by the other connective in time. -/
theorem generated_chains_distinct_scarce :
    let s : Source := ⟨fun _ => 0, 0, 1⟩
    let mixed : Generator := { connectives := [.and, .xor], negation := .never }
    let f := Formula.join .and (var "A") (.join .xor (var "A") (.join .and (var "B") (var "A")))
    let lattice : Generator := { connectives := [.and, .or], negation := .never }
    let g := Formula.join .and (var "A") (.join .or (var "A") (var "A"))
    mixed.generate 4 ["B", "A", "B"] s = .ok (f, { s with drawn := 14 }) ∧ f.DistinctChains ∧
      lattice.generate 3 ["A", "A"] s = .ok (g, { s with drawn := 10 }) ∧
      (Formula.join .or (var "A") (var "A")).connective? ≠ some .and := by
  intro s mixed f lattice g
  have hMixed : mixed.generate 4 ["B", "A", "B"] s = .ok (f, { s with drawn := 14 }) := by cbv
  have hLattice : lattice.generate 3 ["A", "A"] s = .ok (g, { s with drawn := 10 }) := by cbv
  have hNotOne : ¬ ∃ op : Connective,
      op.isIdempotent = true ∧ ∀ other ∈ mixed.connectives, other = op := by
    rintro ⟨op, -, hOnly⟩
    have hAnd : Connective.and = op := hOnly .and (by decide)
    have hXor : Connective.xor = op := hOnly .xor (by decide)
    rw [← hXor] at hAnd
    cases hAnd
  have hDistinct := (generated_chains_distinct hMixed).1 (.inr ⟨by decide, hNotOne⟩)
  have hNe : Connective.and ≠ .or := by decide
  have hSides := (generated_chains_distinct hLattice).2
    ⟨by decide, .and, by decide, .or, by decide, hNe⟩ .and _ _ false .refl rfl
  exact ⟨hMixed, hDistinct, hLattice, hSides.2⟩

end Generator

end Propositional
