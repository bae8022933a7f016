import Propositional.Random.Source
import Propositional.Transform.Permutation
import Propositional.Text.Notation

/-!
# Propositional — shuffling

A shuffled formula looks different and means the same. The shuffler goes from
the root to the leaves; at every connective it may disguise the connective, may
push the mark one level down, and rearranges operands by one of four
permutations drawn evenly. Then it shuffles the two sides that it left there,
which need not be the sides it found.

Variants of a formula are collected from one shuffle after another. Room for as many
as are asked for is set aside at the start, so a number above `maxVariants` is refused,
however few variants there are.

What is drawn is drawn in a fixed order, so a source determines the result. Every side
has fewer leaves, once expanded, than the formula it is a side of, however the
root was changed (`sidesBelow_shuffleRoot`); this is why shuffling ends.
-/

namespace Propositional

/-- A shuffler: how likely it changes what it finds at a connective. -/
structure Shuffler where
  /-- The chance of disguising the connective. -/
  disguise : Chance := .fifth
  /-- The chance of pushing the mark down. -/
  push : Chance := .threeTenths
  deriving DecidableEq

namespace Shuffler

/-- The shuffler with another probability of disguising. -/
def withDisguise (shuffler : Shuffler) (p : Float) : Except ProbabilityError Shuffler := do
  return { shuffler with disguise := ← Chance.ofFloat p }

/-- The shuffler with another probability of pushing marks down. -/
def withPush (shuffler : Shuffler) (p : Float) : Except ProbabilityError Shuffler := do
  return { shuffler with push := ← Chance.ofFloat p }

end Shuffler

/-! ## Room for variants -/

/-- The largest number of formulas that room can be set aside for. A formula takes 32 bytes in a
list, whatever it refers to, and no list takes more than `2 ^ 63 - 1` bytes. -/
def maxVariants : Nat := 0x7FFFFFFFFFFFFFFF / 32

/-- Why variants were not looked for. -/
inductive VariantError where
  /-- Room cannot be set aside for as many as were asked for. -/
  | capacityOverflow
  deriving DecidableEq

/-- What is wrong, in words. -/
def VariantError.message : VariantError → String
  | capacityOverflow => "capacity overflow"

variable {σ : Type} [Draws σ]

/-- A side, the left one if an even chance falls out. -/
def Side.draw (s : σ) : Side × σ :=
  let (isLeft, s) := Draws.flip s .half
  (if isLeft then .left else .right, s)

namespace Formula

/-! ## The root -/

/-- Writes the connective at the root differently: conjunction and disjunction as implication, the
others expanded. -/
def disguiseRoot : Formula → Formula
  | binary .and a b negated => binary .implies a b.negate (!negated)
  | binary .or a b negated => binary .implies a.negate b negated
  | f => f.expandRoot

/-- Applies a permutation if the formula admits it; which operands change places is drawn. -/
def permute (p : Permutation) (f : Formula) (s : σ) : Formula × σ :=
  if f.admits p then
    match p with
    | .swap => (f.swap, s)
    | .throughLeft =>
      let (side, s) := Side.draw s
      (f.permuteThroughLeft side, s)
    | .throughRight =>
      let (side, s) := Side.draw s
      (f.permuteThroughRight side, s)
    | .across =>
      let (ofLeft, s) := Side.draw s
      let (ofRight, s) := Side.draw s
      (f.permuteAcross ofLeft ofRight, s)
  else (f, s)

/-- The shuffler's work at the root of a formula. -/
def shuffleRoot (shuffler : Shuffler) (f : Formula) (s : σ) : Formula × σ :=
  let (disguise, s) := Draws.flip s shuffler.disguise
  let f := if disguise then f.disguiseRoot else f
  let (push, s) := Draws.flip s shuffler.push
  let f := if push then f.pushNegationRoot else f
  let (choice, s) := Draws.below s 4 (by decide)
  f.permute (.ofFin choice) s

/-- A disguise expands to as many leaves as what it disguises. -/
@[simp]
theorem expandedLeafCount_disguiseRoot (f : Formula) :
    f.disguiseRoot.expandedLeafCount = f.expandedLeafCount := by
  unfold disguiseRoot
  split <;> simp [expandedLeafCount, Connective.copies]

/-- A permutation leaves sides that are smaller than the whole, which is why shuffling ends. -/
theorem sidesBelow_permute (p : Permutation) (f : Formula) (s : σ) :
    (f.permute p s).1.SidesBelow f.expandedLeafCount := by
  unfold permute
  split
  next h =>
    -- each permutation has its own way of taking the sides apart
    cases p with
    | swap => exact sidesBelow_swap f.sidesBelow_expandedLeafCount
    | throughLeft => exact sidesBelow_permuteThroughLeft _ h
    | throughRight => exact sidesBelow_permuteThroughRight _ h
    | across => exact sidesBelow_permuteAcross _ _ h
  next => exact f.sidesBelow_expandedLeafCount

/-- However the root is changed, its sides come out smaller than the formula was. -/
theorem sidesBelow_shuffleRoot (shuffler : Shuffler) (f : Formula) (s : σ) :
    (f.shuffleRoot shuffler s).1.SidesBelow f.expandedLeafCount := by
  have h : ∀ disguise push : Bool,
      (if push then (if disguise then f.disguiseRoot else f).pushNegationRoot
        else if disguise then f.disguiseRoot else f).expandedLeafCount = f.expandedLeafCount := by
    intro disguise push
    cases disguise <;> cases push <;> simp
  rw [← h (Draws.flip s shuffler.disguise).1
    (Draws.flip (Draws.flip s shuffler.disguise).2 shuffler.push).1]
  exact sidesBelow_permute _ _ _

/-! ## The whole formula -/

/-- The shuffled formula and the source that is left. Literals stay and draw nothing. -/
def shuffle (shuffler : Shuffler) (f : Formula) (s : σ) : Formula × σ :=
  match f with
  | literal name negated => (literal name negated, s)
  | binary op a b negated =>
    match h : (binary op a b negated).shuffleRoot shuffler s with
    | (literal name negated, s) => (literal name negated, s)
    | (binary op' left right negated', s') =>
      have hSides : left.expandedLeafCount < (binary op a b negated).expandedLeafCount ∧
          right.expandedLeafCount < (binary op a b negated).expandedLeafCount := by
        have := sidesBelow_shuffleRoot shuffler (binary op a b negated) s
        rwa [h] at this
      let (left, s') := left.shuffle shuffler s'
      let (right, s') := right.shuffle shuffler s'
      (binary op' left right negated', s')
termination_by f.expandedLeafCount

/-- Shuffles again and again, at most `attempts` times, until `count` results were found that are
written differently from the texts already seen and from each other. -/
def gatherVariants (f : Formula) : (attempts count : Nat) → (seen : List String) → σ →
    List Formula × σ
  | 0, _, _, s => ([], s)
  | _, 0, _, s => ([], s)
  | attempts + 1, count + 1, seen, s =>
    let (g, s) := f.shuffle {} s
    let text := g.render .unicode
    if text ∈ seen then f.gatherVariants attempts (count + 1) seen s
    else
      let (rest, s) := f.gatherVariants attempts count (text :: seen) s
      (g :: rest, s)

/-- Up to `count` shuffled formulas that are written differently from the formula itself and from
each other. Room for all of them is set aside before the first shuffle. -/
def variants (f : Formula) (count attempts : Nat) (s : σ) :
    Except VariantError (List Formula × σ) :=
  if maxVariants < count then .error .capacityOverflow
  else .ok (f.gatherVariants attempts count [f.render .unicode] s)

end Formula

end Propositional
