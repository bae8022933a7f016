import Mathlib.Data.List.Permutation
import Propositional.Proofs.Patience

/-!
# Propositional — what generated formulas are made of

A generator is told how many leaves to make, from which names and with which connectives,
and a run keeps to all three. The leaves are cut in two at every connective, and where the
right side takes one leaf before the left side is there, this leaf is not given out again.
A name is picked from the pool even when all of it is excluded. And a connective is one of
those configured even when the chain of the parent is not to go on: the parent's connective
is put back only if there is no other.

All of this is read off the rules of `Generator.Builds`, whatever is drawn. That a run has an
answer at all depends on the source, and on nothing but its patience
(`Generator.exists_generate_eq_ok`): there always is a connective to choose.

Main result: `Generator.generated_within_bounds`.
-/

namespace Propositional

namespace Generator

open Formula

variable {generator : Generator} {pool : Pool} {leaves available : Nat}
variable {parent : Option Connective} {op : Connective} {a b f : Formula}
variable {excluded used : List String} {name : String} {s s' : Source}

/-! ## Leaves, names, connectives -/

/-- A connective that is chosen is one of those configured. -/
theorem MayChoose.mem_connectives (h : generator.MayChoose parent available leaves op)
    (hSome : generator.connectives ≠ []) : op ∈ generator.connectives := by
  unfold MayChoose at h
  rcases generator.candidates_cases parent available leaves with
    hAll | ⟨back, hOnly, hBack⟩ | ⟨left, hOthers, -⟩
  · rwa [hAll] at h
  -- what is put back is the only connective there is
  · rw [hBack, List.mem_singleton] at h
    obtain ⟨first, hFirst⟩ := List.exists_mem_of_ne_nil _ hSome
    rwa [h, ← hOnly first hFirst]
  · rw [hOthers] at h
    exact (List.mem_filter.mp h).1

/-- No leaf is made twice and none is left over. -/
theorem Builds.leafCount_eq (h : generator.Builds pool leaves parent excluded f used) :
    f.leafCount = leaves := by
  induction h with
  | literal => rfl
  | reserving _ _ _ _ _ ih => rw [join, leafCount, ih, leafCount]
  | dividing _ _ _ _ _ ihLeft ihRight => rw [join, leafCount, ihLeft, ihRight]

/-- Every name is from the pool. -/
theorem Builds.mem_pool (h : generator.Builds pool leaves parent excluded f used)
    (hName : name ∈ f.names) : name ∈ pool.names := by
  induction h with
  | literal _ hPick =>
    obtain rfl := List.mem_singleton.mp hName
    exact hPick.mem
  | reserving _ _ _ hPick _ ih =>
    rw [join, names_binary, List.mem_append] at hName
    -- on the right stands the name that was reserved, and that was picked too
    rcases hName with hLeft | hRight
    · exact ih hLeft
    · obtain rfl := List.mem_singleton.mp hRight
      exact hPick.mem
  | dividing _ _ _ _ _ ihLeft ihRight =>
    rw [join, names_binary, List.mem_append] at hName
    exact hName.elim ihLeft ihRight

/-- Every connective is configured, and carries no mark. -/
theorem Builds.mem_connectives (h : generator.Builds pool leaves parent excluded f used)
    (hSome : generator.connectives ≠ []) {negated : Bool}
    (hSub : Subformula (.binary op a b negated) f) :
    op ∈ generator.connectives ∧ negated = false := by
  induction h with
  | literal => cases hSub
  | reserving _ _ hOp _ _ ih =>
    -- the reserved side is a literal and has no connective of its own
    cases hSub with
    | refl => exact ⟨hOp.mem_connectives hSome, rfl⟩
    | left hSub => exact ih hSub
    | right hSub => cases hSub
  | dividing _ _ hOp _ _ ihLeft ihRight =>
    cases hSub with
    | refl => exact ⟨hOp.mem_connectives hSome, rfl⟩
    | left hSub => exact ihLeft hSub
    | right hSub => exact ihRight hSub

/-! ## Runs -/

/-- **Generated formulas are within bounds.** A generator that is asked for a leaf or more and has a
name and a connective to use has an answer for every patient source, and whatever its source, its
answer has exactly the leaves that were asked for, names from the list only, configured connectives
only, and marks on literals only. -/
theorem generated_within_bounds {names : List String} (hLeaves : 0 < leaves) (hNames : names ≠ [])
    (hSome : generator.connectives ≠ []) :
    (s.IsPatient → ∃ f s', generator.generate leaves names s = .ok (f, s')) ∧
    ∀ f s', generator.generate leaves names s = .ok (f, s') →
      f.leafCount = leaves ∧ (∀ name ∈ f.names, name ∈ names) ∧
      ∀ op a b negated, Subformula (.binary op a b negated) f →
        op ∈ generator.connectives ∧ negated = false := by
  refine ⟨exists_generate_eq_ok hLeaves hNames hSome, ?_⟩
  intro f s' h
  obtain ⟨pool, used, hPool, hBuilds⟩ := exists_builds_of_generate_eq_ok h
  refine ⟨hBuilds.leafCount_eq, ?_, ?_⟩
  · intro name hName
    rw [← Names.mem_ofList, ← hPool]
    exact hBuilds.mem_pool hName
  · intro op a b negated hSub
    exact hBuilds.mem_connectives hSome hSub

/-- A single name and a single connective, configured twice with weights that are too large together
to be regarded: the chain uses the name up at once, and the connective is put back below the
root. -/
theorem generated_within_bounds_scarce :
    let s : Source := ⟨fun _ => 0x100000000, 0, 1⟩
    let single : Generator :=
      { connectives := [.and, .and], negation := .never, usualWeight := 0xFFFFFFFF }
    let f := Formula.join .and (var "A") (.join .and (var "A") (var "A"))
    0 < 3 ∧ ["A", "A"] ≠ [] ∧ single.connectives ≠ [] ∧ s.IsPatient ∧
      single.generate 3 ["A", "A"] s = .ok (f, { s with drawn := 10 }) ∧ f.leafCount = 3 ∧
      (∀ name ∈ f.names, name ∈ ["A", "A"]) ∧
      Subformula (.join .and (var "A") (var "A")) f ∧ Connective.and ∈ single.connectives := by
  intro s single f
  have hNonempty : ["A", "A"] ≠ [] := List.cons_ne_nil _ _
  have hSome : single.connectives ≠ [] := by decide
  have hHalf : (0x100000000 : UInt64).toNat / UInt32.size = 1 := by decide
  -- every word has 1 as its upper half, so the first attempt is always accepted
  have hPatient : s.IsPatient := Source.isPatient_of_forall Nat.one_pos fun _ => hHalf
  have hRun : single.generate 3 ["A", "A"] s = .ok (f, { s with drawn := 10 }) := by cbv
  have hSub : Subformula (.join .and (var "A") (var "A")) f := .right .refl
  have hBounds := (generated_within_bounds (Nat.succ_pos 2) hNonempty hSome).2 f _ hRun
  obtain ⟨hLeaves, hNames, hConnectives⟩ := hBounds
  exact ⟨Nat.succ_pos 2, hNonempty, hSome, hPatient, hRun, hLeaves, hNames, hSub,
    (hConnectives _ _ _ _ hSub).1⟩

end Generator

end Propositional
