import Mathlib.Algebra.Group.Nat.Defs
import Propositional.Proofs.Shuffling

/-!
# Propositional — how many words shuffling draws

A source is a stream of words and a place in it, and a draw moves the place. So what a
shuffler draws can be told from the source that it leaves: the stream and the patience are
those of the source it was given, and the place is so many words further on
(`Source.ahead`).

At a connective an event takes a word unless it is certain, and the choice of a permutation
takes one: a number below four never needs the second half word, because the part of the
word that is cut off is a multiple of four (`Source.below_four_snd`). A permutation that
does not apply takes no coins (`Formula.permute_snd`). All this happens once for each
connective *of the result*. The connectives that expanding has written twice are met when
the shuffler comes to them, and those that were there before and are rewritten at the root
are not met again, so the induction over a run counts what is left standing.

Main result: `Formula.shuffle_draws_by_connective`.
-/

namespace Propositional

/-! ## Words of the single draws -/

/-- The number of words that an event of this chance takes. -/
def Chance.words : Chance → Nat
  | .certain => 0
  | .below _ => 1

/-- A coin that is not certain takes one word. -/
theorem Chance.words_of_ne_certain {chance : Chance} (h : chance ≠ .certain) :
    chance.words = 1 := by
  cases chance with
  | certain => exact absurd rfl h
  | below => rfl

/-- The number of coins that decide which operands change places. -/
def Permutation.coins : Permutation → Nat
  | .swap => 0
  | .throughLeft | .throughRight => 1
  | .across => 2

theorem Permutation.coins_le_two (p : Permutation) : p.coins ≤ 2 := by
  cases p <;> decide

namespace Source

/-- The source after so many more words. -/
def ahead (s : Source) (n : Nat) : Source := { s with drawn := s.drawn + n }

theorem ahead_ahead (s : Source) (m n : Nat) : (s.ahead m).ahead n = s.ahead (m + n) := by
  simp only [ahead, Nat.add_assoc]

theorem flip_snd (s : Source) (chance : Chance) : (s.flip chance).2 = s.ahead chance.words := by
  cases chance <;> rfl

/-- Four times a number leaves a multiple of four, so a half word decides. -/
theorem below_four_snd (s : Source) (h : 0 < 4) : (s.below 4 h).2 = s.ahead 1 := by
  unfold below
  dsimp only
  -- the second half word would be drawn if the remainder were above `UInt32.size - 4`
  rw [if_neg]
  · rfl
  · simp only [UInt32.size]
    omega

end Source

theorem Side.draw_snd (s : Source) : (Side.draw s).2 = s.ahead 1 := s.flip_snd .half

/-- The number of words drawn at every connective, coins left out of account. -/
def Shuffler.words (shuffler : Shuffler) : Nat :=
  shuffler.disguise.words + shuffler.push.words + 1

namespace Formula

/-! ## One root -/

/-- Coins are thrown for a permutation that applies, and for no other. -/
theorem permute_snd (p : Permutation) (f : Formula) (s : Source) :
    (f.permute p s).2 = s.ahead (if f.admits p then p.coins else 0) := by
  unfold permute
  split
  next =>
    -- a side is drawn for each pair that is taken apart
    cases p with
    | swap => rfl
    | throughLeft | throughRight => exact Side.draw_snd s
    | across =>
      show (Side.draw (Side.draw s).2).2 = s.ahead 2
      rw [Side.draw_snd, Side.draw_snd, Source.ahead_ahead]
  next => rfl

/-- The first words decide the two events, the next one is for the choice of the permutation, and
the permutation begins behind it. -/
theorem shuffleRoot_eq_ahead (shuffler : Shuffler) (f : Formula) (s : Source) :
    f.shuffleRoot shuffler s =
      (f.rewriteRoot (s.flip shuffler.disguise).1
        ((s.ahead shuffler.disguise.words).flip shuffler.push).1).permute
        (.ofFin ((s.ahead (shuffler.disguise.words + shuffler.push.words)).below 4 zero_lt_four).1)
        (s.ahead shuffler.words) := by
  -- each draw goes on where the one before it ended
  have hRoot : f.shuffleRoot shuffler s =
      (f.rewriteRoot (s.flip shuffler.disguise).1
        ((s.flip shuffler.disguise).2.flip shuffler.push).1).permute
        (.ofFin (((s.flip shuffler.disguise).2.flip shuffler.push).2.below 4 zero_lt_four).1)
        (((s.flip shuffler.disguise).2.flip shuffler.push).2.below 4 zero_lt_four).2 := rfl
  rw [hRoot, Source.below_four_snd, Source.flip_snd, Source.flip_snd, Source.ahead_ahead,
    Source.ahead_ahead, Shuffler.words]

/-- A root takes the words of its three decisions and of at most two coins. -/
theorem exists_shuffleRoot_snd (shuffler : Shuffler) (f : Formula) (s : Source) :
    ∃ coins ≤ 2, (f.shuffleRoot shuffler s).2 = s.ahead (shuffler.words + coins) := by
  rw [shuffleRoot_eq_ahead, permute_snd, Source.ahead_ahead]
  refine ⟨_, ?_, rfl⟩
  split
  next => exact Permutation.coins_le_two _
  next => exact Nat.zero_le 2

/-! ## A whole run -/

/-- A run draws for the connectives of its result, whatever the chances of the shuffler are. -/
theorem exists_shuffle_snd (shuffler : Shuffler) (f : Formula) (s : Source) :
    ∃ count coins, (f.shuffle shuffler s).1.leafCount = count + 1 ∧ coins ≤ 2 * count ∧
      (f.shuffle shuffler s).2 = s.ahead (shuffler.words * count + coins) := by
  refine shuffle_induction (motive := fun _ s result => ∃ count coins,
    result.1.leafCount = count + 1 ∧ coins ≤ 2 * count ∧
      result.2 = s.ahead (shuffler.words * count + coins)) ?literal ?binary f s
  case literal =>
    intro name negated s
    exact ⟨0, 0, rfl, Nat.le_refl _, rfl⟩
  case binary =>
    intro f s op left right negated s₁ left' s₂ right' s₃ hRoot hLeft hRight
    obtain ⟨coins, hCoins, hDrawn⟩ := exists_shuffleRoot_snd shuffler f s
    obtain ⟨countLeft, coinsLeft, hLeavesLeft, hCoinsLeft, rfl⟩ := hLeft
    obtain ⟨countRight, coinsRight, hLeavesRight, hCoinsRight, rfl⟩ := hRight
    rw [hRoot] at hDrawn
    dsimp only at hDrawn hLeavesLeft hLeavesRight
    -- the root is one more connective than there are on its two sides
    refine ⟨1 + countLeft + countRight, coins + coinsLeft + coinsRight, ?_, by omega, ?_⟩
    · show left'.leafCount + right'.leafCount = 1 + countLeft + countRight + 1
      omega
    · show (s₁.ahead _).ahead _ = s.ahead _
      rw [hDrawn, Source.ahead_ahead, Source.ahead_ahead]
      congr 1
      rw [Nat.mul_add, Nat.mul_add, Nat.mul_one]
      omega

/-- **Shuffling draws by the connectives of its result.** A shuffler whose chances are both below
one draws words from the source and does nothing else to it. For each connective of the formula
that it answers, however many of them expanding has made, it draws at least three words and at most
five, and for a literal none. -/
theorem shuffle_draws_by_connective {shuffler : Shuffler} (hDisguise : shuffler.disguise ≠ .certain)
    (hPush : shuffler.push ≠ .certain) (f : Formula) (s : Source) :
    (∃ n, (f.shuffle shuffler s).2 = { s with drawn := s.drawn + n } ∧
      3 * ((f.shuffle shuffler s).1.leafCount - 1) ≤ n ∧
      n ≤ 5 * ((f.shuffle shuffler s).1.leafCount - 1)) ∧
    (f.isLiteral = true → f.shuffle shuffler s = (f, s)) := by
  constructor
  · -- a formula has one connective less than it has leaves
    obtain ⟨count, coins, hLeaves, hCoins, hDrawn⟩ := exists_shuffle_snd shuffler f s
    have hWords : shuffler.words = 3 := by
      rw [Shuffler.words, Chance.words_of_ne_certain hDisguise, Chance.words_of_ne_certain hPush]
    rw [hWords] at hDrawn
    refine ⟨_, hDrawn, ?_, ?_⟩
    · omega
    · omega
  · intro hLiteral
    cases f with
    | literal name negated => exact shuffle_literal shuffler name negated s
    | binary => cases hLiteral

/-- Words with which the first event happens and no other. -/
def firstHappens : Source := ⟨fun place => if place = 0 then 0 else 0xFFFFFFFFFFFFFFFF, 0, 0⟩

/-- An exclusive or is disguised and then has three connectives instead of one. The permutation of
the root exchanges nothing, because neither side continues its chain. -/
theorem shuffle_draws_by_connective_xor :
    let f := join .xor (var "A") (var "B")
    ({} : Shuffler).disguise ≠ .certain ∧ ({} : Shuffler).push ≠ .certain ∧
      f.leafCount = 2 ∧ (f.shuffle {} firstHappens).1.leafCount = 4 ∧
      ∃ n, (f.shuffle {} firstHappens).2 = firstHappens.ahead n ∧ 9 ≤ n ∧ n ≤ 15 := by
  intro f
  have hDisguise : ({} : Shuffler).disguise ≠ .certain := by decide
  have hPush : ({} : Shuffler).push ≠ .certain := by decide
  obtain ⟨⟨n, hDrawn, hLow, hHigh⟩, -⟩ :=
    shuffle_draws_by_connective hDisguise hPush f firstHappens
  have hRoot : f.shuffleRoot {} firstHappens =
      (join .or (join .and (var "A") (notVar "B")) (join .and (notVar "A") (var "B")),
        firstHappens.ahead 3) := by
    rw [shuffleRoot_eq_ahead]
    show permute .across (rewriteRoot true false f) (firstHappens.ahead 3) = _
    rfl
  -- on the sides no event happens, and the literals draw no words
  have hSide : ∀ a b drawn, let side := join .and (literal "A" a) (literal "B" b)
      side.shuffleRoot {} (firstHappens.ahead drawn) = (side, firstHappens.ahead (drawn + 3)) →
      side.shuffle {} (firstHappens.ahead drawn) = (side, firstHappens.ahead (drawn + 3)) := by
    intro a b drawn side hRoot
    rw [shuffle_binary hRoot]
    simp only [shuffle_literal]
    rfl
  have hLeaves : (f.shuffle {} firstHappens).1.leafCount = 4 := by
    rw [shuffle_binary hRoot, var, notVar, var, notVar, hSide false true 3 rfl]
    dsimp only
    rw [hSide true false 6 rfl]
    rfl
  rw [hLeaves] at hLow hHigh
  exact ⟨hDisguise, hPush, rfl, hLeaves, n, hDrawn, hLow, hHigh⟩

end Formula

end Propositional
