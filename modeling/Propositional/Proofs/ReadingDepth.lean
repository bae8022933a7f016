import Propositional.Proofs.RoundTrip

/-!
# Propositional — the depth of what is read

The limit counts levels of a text, which are the parentheses around an operand and the
operators before it. The depth counts connectives from the root of a formula. They are
not the same: the first operand of a chain stands at the level of the chain and yet
below a connective.

Two facts make up for this one connective. After its operator comes another operand, one
level further on, so a variable in front of an operator has a level to spare. And an
operand that is more than a variable stands in parentheses, which are a level that its
own depth does not use (`Derives.depth_bounds`). Whatever parentheses and chains a text
mixes, a formula is therefore at most as deep as the deepest level of its text.

Main result: `Formula.parse_within_limits`. The bound is reached
(`Formula.parse_within_limits_at_limit`).
-/

namespace Propositional

/-- Below the level of a phrase there are as many levels as the formula is deep. Below an operand
there is one more, unless it is a literal. -/
theorem Derives.depth_bounds {phrase : Phrase} {level deepest : Nat} {tokens : List Token}
    {f : Formula} (h : Derives phrase level tokens f deepest) :
    level + f.depth ≤ deepest ∧
      (phrase ≠ .expression → f.depth = 0 ∨ level + 1 + f.depth ≤ deepest) := by
  induction h with
  | name name offset => exact ⟨Nat.le_refl _, fun _ => .inl rfl⟩
  | parentheses opening closing _ _ _ ih =>
    -- the parentheses took the level that is to spare
    obtain ⟨hInside, -⟩ := ih
    exact ⟨by omega, fun _ => .inr hInside⟩
  | plain _ ih => exact ⟨ih.1, fun _ => ih.2 (by decide)⟩
  | negated negation _ _ ih =>
    rw [Formula.depth_negate]
    exact ⟨ih.1, fun _ => ih.2 (by decide)⟩
  | last _ ih => exact ⟨ih.1, fun h => absurd rfl h⟩
  | chain op operator _ _ _ ih ihRest =>
    refine ⟨?_, fun h => absurd rfl h⟩
    -- the first operand comes to stand below the operator: if it is a literal, the rest is deeper
    have hFirst := ih.2 (by decide)
    have hRest := ihRest.1
    simp only [Formula.join, Formula.depth]
    omega

namespace Formula

/-- A chain of implications is as deep as it is long. -/
theorem depth_implications (n : Nat) : (implications n).depth = n := by
  induction n with
  | zero => rfl
  | succ n ih =>
    have hRight : (implications (n + 1)).depth = 1 + max 0 (implications n).depth := rfl
    rw [hRight, ih]
    omega

/-- **What is read is within limits**: no deeper than the deepest level that a text may have, and
all its names are words. -/
theorem parse_within_limits {text : String} {f : Formula} (h : parse text = .ok f) :
    f.depth ≤ maxLevel ∧ f.HasWords := by
  obtain ⟨deepest, hDerives, hDeepest⟩ := exists_derives_of_parse_eq_ok h
  have hDepth : 0 + f.depth ≤ deepest := hDerives.depth_bounds.1
  exact ⟨by omega, hasWords_of_parse_eq_ok h⟩

/-- As many implications in a chain as there are levels make a formula of the greatest depth. -/
theorem parse_within_limits_at_limit :
    parse (implicationText maxLevel) = .ok (implications maxLevel) ∧
      (implications maxLevel).depth = maxLevel ∧
      (implications maxLevel).depth ≤ maxLevel ∧ (implications maxLevel).HasWords := by
  have hRead : parse (implicationText maxLevel) = .ok (implications maxLevel) :=
    parse_implications (Nat.le_refl _)
  exact ⟨hRead, depth_implications _, parse_within_limits hRead⟩

end Formula

end Propositional
