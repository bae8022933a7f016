import Propositional.Random.Chance

/-!
# Propositional — random words and what is drawn from them

All randomness comes from a `Source`: an endless stream of 64-bit words and the
number of words already drawn. Drawing is a function from a source to a value
and the source that is left, so equal sources give equal results, and the number
of words a computation used can be read off.

From words come events of a given chance (`flip`), numbers below a bound
(`below`) and members of a list by weight (`chooseWeighted`). The last one
rejects words until one fits. No word stream is excluded, not even one that
never fits, so rejection goes on only as long as the patience of the source
lasts, and there is no result when it ends.

What needs no more than events and bounded numbers is written for any `Draws`,
of which a `Source` is one. Nothing is known there about the outcomes but their
type, so what is proved of it holds however it is drawn.
-/

namespace Propositional

/-- States that events of a given chance and numbers below a bound can be drawn from. -/
class Draws (σ : Type) where
  /-- Whether an event happens. -/
  flip : σ → Chance → Bool × σ
  /-- A number below a bound. -/
  below : σ → (n : Nat) → 0 < n → Fin n × σ

/-- A stream of random words, how many were drawn, and how many words in a row may be rejected. -/
structure Source where
  word : Nat → UInt64
  drawn : Nat
  patience : Nat

namespace Source

/-- The next word. -/
def next (s : Source) : UInt64 × Source :=
  (s.word s.drawn, { s with drawn := s.drawn + 1 })

/-- The upper half of the next word, a number below `UInt32.size`. -/
def nextHalf (s : Source) : Nat × Source :=
  let (word, s) := s.next
  (word.toNat / UInt32.size, s)

/-- Whether an event happens. A certain event takes no word. -/
def flip (s : Source) : Chance → Bool × Source
  | .certain => (true, s)
  | .below threshold =>
    let (word, s) := s.next
    (decide (word < threshold), s)

theorem nextHalf_lt (s : Source) : s.nextHalf.1 < UInt32.size := by
  have := (s.word s.drawn).toNat_lt
  simp only [nextHalf, next, UInt32.size]
  omega

/-- A half word, read as a fraction of `UInt32.size`, falls below `n` when it is scaled by `n`. -/
theorem mul_div_lt {x n k : Nat} (h : x < k) (hn : 0 < n) : x * n / k < n :=
  Nat.div_lt_of_lt_mul (Nat.mul_lt_mul_of_pos_right h hn)

/-- A number below `n`: half a word scaled by `n`. Where the half that is cut off could matter, the
next half word is taken as further digits. -/
def below (s : Source) (n : Nat) (h : 0 < n) : Fin n × Source :=
  let high := s.nextHalf
  if high.1 * n % UInt32.size > UInt32.size - n then
    let low := high.2.nextHalf
    -- both halves together are one word
    have hLt : high.1 * UInt32.size + low.1 < UInt64.size := by
      have hHigh : high.1 < UInt32.size := s.nextHalf_lt
      have hLow : low.1 < UInt32.size := high.2.nextHalf_lt
      simp only [UInt32.size, UInt64.size] at *
      omega
    (⟨(high.1 * UInt32.size + low.1) * n / UInt64.size, mul_div_lt hLt h⟩, low.2)
  else
    (⟨high.1 * n / UInt32.size, mul_div_lt s.nextHalf_lt h⟩, high.2)

instance : Draws Source := ⟨flip, below⟩

@[simp]
theorem draws_flip (s : Source) (chance : Chance) : Draws.flip s chance = s.flip chance := rfl

@[simp]
theorem draws_below (s : Source) (n : Nat) (h : 0 < n) : Draws.below s n h = s.below n h := rfl

/-- A number below `n` such that each is equally likely: half words that fall into the part of the
range that `n` does not divide evenly are rejected. -/
def belowEvenly (n : Nat) : (patience : Nat) → Source → Option (Nat × Source)
  | 0, _ => none
  | patience + 1, s =>
    let (half, s) := s.nextHalf
    if (UInt32.size - n) % n ≤ half * n % UInt32.size then some (half * n / UInt32.size, s)
    else belowEvenly n patience s

/-- A member of a list, each with the same chance; none if the list is empty. -/
def choose? {α : Type} (s : Source) (xs : List α) : Option (α × Source) :=
  if h : 0 < xs.length then
    let (i, s) := s.below xs.length h
    some (xs[i], s)
  else none

/-- The first member whose weight, added to those before it, exceeds a number. -/
def atWeight? {α : Type} : List (α × UInt32) → Nat → Option α
  | [], _ => none
  | (x, weight) :: rest, n =>
    if n < weight.toNat then some x else atWeight? rest (n - weight.toNat)

/-- A member of a list by weight. If the weights add up to nothing or to more than 32 bits hold,
they are not regarded. -/
def chooseWeighted? {α : Type} (s : Source) (xs : List (α × UInt32)) : Option (α × Source) :=
  let total := xs.foldr (fun x total => x.2.toNat + total) 0
  if total = 0 ∨ UInt32.size ≤ total then s.choose? (xs.map Prod.fst)
  else do
    let (n, s) ← belowEvenly total s.patience s
    let x ← atWeight? xs n
    return (x, s)

end Source

end Propositional
