import Propositional.Generator

/-!
# Propositional — what a generator can build

A run of a generator draws names, connectives and cuts from a source. What a run can come
to does not depend on how they are drawn: a name that is picked is one of the pool, and an
excluded one only if all are excluded (`Pool.MayPick`); a connective that is chosen is one
of the candidates, whatever their weights (`Generator.MayChoose`); a cut leaves at least one
leaf on each side.

`Generator.Builds` says with these alone which formulas a call may answer. It has a rule for
each way a formula comes about: one leaf, a right side of one leaf that takes its name
first, and two sides of which the right one has more leaves. Every run follows these rules
(`Generator.builds_of_build`), so whatever is to be known of all runs is an induction on
them.
-/

namespace Propositional

/-! ## Draws -/

namespace Source

variable {α : Type} {s s' : Source} {x : α}

/-- What is chosen from a list is in the list. -/
theorem mem_of_choose?_eq_some {xs : List α} (h : s.choose? xs = some (x, s')) : x ∈ xs := by
  unfold choose? at h
  split at h
  next =>
    cases h
    exact List.getElem_mem _
  next => cases h

theorem eq_nil_of_choose?_eq_none {xs : List α} (h : s.choose? xs = none) : xs = [] := by
  unfold choose? at h
  split at h
  next => cases h
  next hPos => exact List.length_eq_zero_iff.mp (Nat.eq_zero_of_not_pos hPos)

/-- What stands at a weight is in the list. -/
theorem mem_of_atWeight?_eq_some {xs : List (α × UInt32)} {n : Nat}
    (h : atWeight? xs n = some x) : x ∈ xs.map Prod.fst := by
  induction xs generalizing n with
  | nil => cases h
  | cons first rest ih =>
    rw [List.map_cons, List.mem_cons]
    unfold atWeight? at h
    split at h
    next => cases h; exact .inl rfl
    next => exact .inr (ih h)

/-- What is chosen is a member, also if the weights add up to nothing or to too much. -/
theorem mem_of_chooseWeighted?_eq_some {xs : List (α × UInt32)}
    (h : s.chooseWeighted? xs = some (x, s')) : x ∈ xs.map Prod.fst := by
  unfold chooseWeighted? at h
  dsimp only at h
  -- weights that sum to nothing, or to too much, are not regarded; else a draw says which it is
  split at h
  next => exact mem_of_choose?_eq_some h
  next =>
    rw [Option.bind_eq_bind, Option.bind_eq_some_iff] at h
    obtain ⟨⟨n, s₁⟩, -, h⟩ := h
    rw [Option.bind_eq_bind, Option.bind_eq_some_iff] at h
    obtain ⟨y, hAt, h⟩ := h
    cases h
    exact mem_of_atWeight?_eq_some hAt

end Source

/-! ## Names of a pool -/

namespace Pool

variable {pool : Pool} {excluded : List String} {name : String}

/-- The name may be picked: it is in the pool, and it is excluded only if every name is. -/
structure MayPick (pool : Pool) (excluded : List String) (name : String) : Prop where
  mem : name ∈ pool.names
  exhausted : name ∈ excluded → pool.available excluded = []

theorem mem_available :
    name ∈ pool.available excluded ↔ name ∈ pool.names ∧ name ∉ excluded := by
  simp [available]

/-- What is picked may be picked: an excluded name only if no other is left. -/
theorem mayPick_pick (pool : Pool) (excluded : List String) (s : Source) :
    pool.MayPick excluded (pool.pick excluded s).1 := by
  unfold pick
  split
  next chosen hChosen =>
    have hMem : chosen.1 ∈ pool.available excluded := Source.mem_of_choose?_eq_some hChosen
    obtain ⟨hName, hFree⟩ := mem_available.mp hMem
    exact ⟨hName, fun hExcluded => absurd hExcluded hFree⟩
  -- nothing is left, and any name of the pool is taken
  next hNone => exact ⟨Array.getElem_mem _, fun _ => Source.eq_nil_of_choose?_eq_none hNone⟩

end Pool

/-! ## Formulas of a generator -/

namespace Generator

variable {generator : Generator} {pool : Pool} {leaves : Nat} {parent : Option Connective}
variable {excluded used : List String} {f : Formula} {s s' : Source}

/-- The connective may be chosen: it is a candidate under this parent, with so many names available
and so many leaves to generate. -/
def MayChoose (generator : Generator) (parent : Option Connective) (available leaves : Nat)
    (op : Connective) : Prop :=
  op ∈ (generator.candidates parent available leaves).map Prod.fst

/-- The names that the chain of a new node begins with: those of its parent's if it continues it. -/
def inherited (op : Connective) (parent : Option Connective) (excluded : List String) :
    List String :=
  if op.isIdempotent ∧ parent = some op then excluded else []

/-- The names that a right literal takes from the chain of the connective above it. -/
def reserved (op : Connective) (name : String) : List String :=
  if op.isIdempotent then [name] else []

/-- The names excluded from a left side with so many leaves, beside a right literal that has its
name already and in a chain that has used some names. A literal avoids the name under every
connective. -/
def excludedBeside (op : Connective) (name : String) (leaves : Nat) (chain : List String) :
    List String :=
  if leaves = 1 then name :: (reserved op name ++ chain) else reserved op name ++ chain

/-- The names that a side takes from the chain of the connective above it. -/
def passedOn (op : Connective) (side : Formula) (used : List String) : List String :=
  if extendsChain op side then used else []

/-- `generator.Builds pool leaves parent excluded f used` says that a call for so many leaves under
a parent with some names excluded may answer the formula and these as the names of its chain. -/
inductive Builds (generator : Generator) (pool : Pool) :
    Nat → Option Connective → List String → Formula → List String → Prop
  | literal {parent : Option Connective} {excluded : List String} {name : String} (negated : Bool)
    (hName : pool.MayPick excluded name) :
    Builds generator pool 1 parent excluded (.literal name negated) [name]
  | reserving {leaves : Nat} {parent : Option Connective} {excluded : List String}
    {op : Connective} {name : String} {left : Formula} {used : List String} (negated : Bool)
    (hLeaves : 0 < leaves)
    (hOp : generator.MayChoose parent (pool.available excluded).length (leaves + 1) op)
    (hName : pool.MayPick (inherited op parent excluded) name)
    (hLeft : Builds generator pool leaves (some op)
      (excludedBeside op name leaves (inherited op parent excluded)) left used) :
    Builds generator pool (leaves + 1) parent excluded (.join op left (.literal name negated))
      (reserved op name ++ passedOn op left used)
  | dividing {leftLeaves rightLeaves : Nat} {parent : Option Connective} {excluded : List String}
    {op : Connective} {left right : Formula} {leftUsed rightUsed : List String}
    (hLeftLeaves : 0 < leftLeaves) (hRightLeaves : 1 < rightLeaves)
    (hOp : generator.MayChoose parent (pool.available excluded).length (leftLeaves + rightLeaves)
      op)
    (hLeft : Builds generator pool leftLeaves (some op) (inherited op parent excluded) left
      leftUsed)
    (hRight : Builds generator pool rightLeaves (some op)
      (passedOn op left leftUsed ++ inherited op parent excluded) right rightUsed) :
    Builds generator pool (leftLeaves + rightLeaves) parent excluded (.join op left right)
      (passedOn op left leftUsed ++ passedOn op right rightUsed)

/-- **Every run follows the rules.** -/
theorem builds_of_build (hLeaves : 0 < leaves)
    (h : generator.build pool leaves parent excluded s = some ((f, used), s')) :
    generator.Builds pool leaves parent excluded f used := by
  induction leaves using Nat.strongRecOn generalizing parent excluded s f used s' with
  | ind leaves ih =>
    rw [build] at h
    split at h
    next hOne =>
      obtain rfl : leaves = 1 := by omega
      cases h
      exact .literal _ (pool.mayPick_pick excluded s)
    next hMore =>
      rw [Option.bind_eq_bind, Option.bind_eq_some_iff] at h
      obtain ⟨⟨op, s₁⟩, hChosen, h⟩ := h
      have hOp : generator.MayChoose parent (pool.available excluded).length leaves op :=
        Source.mem_of_chooseWeighted?_eq_some hChosen
      dsimp only at h
      -- of the cut it only matters that it is below the number of leaves less one
      generalize s₁.below (leaves - 1) _ = drawn at h
      obtain ⟨⟨cut, hCut⟩, s₂⟩ := drawn
      dsimp only at h
      split at h
      next hOne =>
        obtain rfl : leaves = cut + 1 + 1 := by omega
        rw [Option.bind_eq_bind, Option.bind_eq_some_iff] at h
        obtain ⟨⟨⟨left, leftUsed⟩, s₃⟩, hLeft, h⟩ := h
        cases h
        exact .reserving _ (Nat.succ_pos cut) hOp (pool.mayPick_pick _ s₂)
          (ih (cut + 1) (by omega) (Nat.succ_pos cut) hLeft)
      next hRight =>
        obtain ⟨rightLeaves, rfl⟩ : ∃ rightLeaves, leaves = cut + 1 + rightLeaves :=
          ⟨leaves - (cut + 1), by omega⟩
        rw [Nat.add_sub_cancel_left] at h hRight
        rw [Option.bind_eq_bind, Option.bind_eq_some_iff] at h
        obtain ⟨⟨⟨left, leftUsed⟩, s₃⟩, hLeft, h⟩ := h
        rw [Option.bind_eq_some_iff] at h
        obtain ⟨⟨⟨right, rightUsed⟩, s₄⟩, hRightBuild, h⟩ := h
        cases h
        exact .dividing (Nat.succ_pos cut) (by omega) hOp
          (ih (cut + 1) (by omega) (Nat.succ_pos cut) hLeft)
          (ih rightLeaves (by omega) (by omega) hRightBuild)

/-- A formula that is generated is built, under no connective and with no name excluded, from the
names that were given. -/
theorem exists_builds_of_generate_eq_ok {names : List String}
    (h : generator.generate leaves names s = .ok (f, s')) :
    ∃ pool used, pool.names = Names.ofList names ∧
      generator.Builds pool leaves none [] f used := by
  unfold generate at h
  -- generation fails without leaves, without names or without connectives, before any draw
  split at h
  next => cases h
  next hLeaves =>
    split at h
    next => cases h
    next pool hPool =>
      have hNames : pool.names = Names.ofList names := by
        unfold Pool.ofList? at hPool
        split at hPool
        next => cases hPool; rfl
        next => cases hPool
      split at h
      next => cases h
      next =>
        split at h
        next f' used s'' hBuild =>
          cases h
          exact ⟨pool, used, hNames, builds_of_build (Nat.pos_of_ne_zero hLeaves) hBuild⟩
        next => cases h

end Generator

end Propositional
