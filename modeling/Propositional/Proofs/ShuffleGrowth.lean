import Mathlib.Algebra.Group.Nat.Defs
import Propositional.Proofs.Shuffling

/-!
# Propositional — how far shuffling goes

A shuffler expands an exclusive or or an equivalence when it disguises it or pushes its
mark, and each expansion writes both sides twice. It then goes on with these sides, which
hold copies of all the connectives below. So the question is whether the copies can keep
on doubling, and whether the calls end at all.

They do not keep on: every doubling uses up a connective on the way to the leaves below
it. `Formula.leafBound` counts the leaves, doubled once for each exclusive or and each
equivalence. An expanded root can exceed this count as a whole, because the connectives
below it are there twice. Its two sides together do not, and the sides are what the
shuffler goes on with (`Formula.sidesBounded_shuffleRoot`). For this it matters that no
permutation mixes the two copies: neither of them continues the chain of the new root
(`Formula.permute_of_not_continues`).

That the calls end is said with a bound on them: `Formula.shuffleWithin?` makes no more
calls inside one another than it is allowed, and it needs one more than the depth of the
result.

Main result: `Formula.shuffle_grows_within_bounds`.
-/

namespace Propositional

namespace Formula

/-! ## Counting what can double -/

/-- The root is a connective that expanding writes with both sides twice. -/
def Doubles : Formula → Prop
  | literal .. => False
  | binary op .. => op = .xor ∨ op = .iff

/-- The number of connectives that expanding writes with both sides twice. -/
def doublings : Formula → Nat
  | literal .. => 0
  | binary op a b _ => (if op = .xor ∨ op = .iff then 1 else 0) + a.doublings + b.doublings

/-- The number of leaves, doubled as often as a connective can be expanded into two copies. -/
def leafBound (f : Formula) : Nat := f.leafCount * 2 ^ f.doublings

@[simp]
theorem doublings_negate (f : Formula) : f.negate.doublings = f.doublings := by
  cases f <;> rfl

/-- Both sides of the root, if it has sides, are bounded by this together. -/
def SidesBounded (n : Nat) : Formula → Prop
  | literal .. => True
  | binary _ a b _ => a.leafBound + b.leafBound ≤ n

/-- The sides of a formula stay within its bound. -/
theorem sidesBounded_leafBound (f : Formula) : f.SidesBounded f.leafBound := by
  cases f with
  | literal => trivial
  | binary op a b negated =>
    -- either side has no more doublings than the whole
    have hLeft : 2 ^ a.doublings ≤ 2 ^ (binary op a b negated).doublings :=
      Nat.pow_le_pow_right (by decide) (by simp only [doublings]; omega)
    have hRight : 2 ^ b.doublings ≤ 2 ^ (binary op a b negated).doublings :=
      Nat.pow_le_pow_right (by decide) (by simp only [doublings]; omega)
    calc a.leafBound + b.leafBound
        ≤ a.leafCount * 2 ^ (binary op a b negated).doublings +
          b.leafCount * 2 ^ (binary op a b negated).doublings :=
          Nat.add_le_add (Nat.mul_le_mul_left _ hLeft) (Nat.mul_le_mul_left _ hRight)
      _ = (binary op a b negated).leafBound := by rw [← Nat.add_mul]; rfl

end Formula

namespace Reorders

variable {f g : Formula}

theorem leafCount_eq (h : Reorders f g) : f.leafCount = g.leafCount := by
  rw [← Formula.length_names, ← Formula.length_names]
  exact h.names_perm.length_eq

theorem doublings_eq (h : Reorders f g) : f.doublings = g.doublings := by
  induction h with
  | refl => rfl
  | trans _ _ ih ih' => exact ih.trans ih'
  | sides _ _ iha ihb => simp only [Formula.doublings, iha, ihb]
  | swap => simp only [Formula.doublings]; omega
  | toLeft | toRight => simp only [Formula.doublings, Formula.join]; omega

theorem leafBound_eq (h : Reorders f g) : f.leafBound = g.leafBound := by
  rw [Formula.leafBound, h.leafCount_eq, h.doublings_eq, Formula.leafBound]

end Reorders

namespace Formula

variable {σ : Type} [Draws σ]

/-! ## What the moves at a root do to the count -/

@[simp]
theorem isNegated_expandRoot (f : Formula) : f.expandRoot.isNegated = f.isNegated := by
  cases f with
  | literal => rfl
  | binary op => cases op <;> rfl

@[simp]
theorem expandRoot_expandRoot (f : Formula) : f.expandRoot.expandRoot = f.expandRoot := by
  cases f with
  | literal => rfl
  | binary op => cases op <;> rfl

@[simp]
theorem leafCount_deMorgan (f : Formula) : f.deMorgan.leafCount = f.leafCount := by
  unfold deMorgan
  split
  next op a b => cases op <;> simp [Connective.dual, join, leafCount]
  next => rfl

theorem leafCount_le_expandRoot (f : Formula) : f.leafCount ≤ f.expandRoot.leafCount := by
  cases f with
  | literal => exact Nat.le_refl _
  | binary op a b negated =>
    cases op <;> simp only [expandRoot, join, leafCount, leafCount_negate] <;> omega

theorem leafCount_le_disguiseRoot (f : Formula) : f.leafCount ≤ f.disguiseRoot.leafCount := by
  unfold disguiseRoot
  split
  next => simp [leafCount]
  next => simp [leafCount]
  next => exact leafCount_le_expandRoot _

theorem leafCount_le_pushNegationRoot (f : Formula) :
    f.leafCount ≤ f.pushNegationRoot.leafCount := by
  unfold pushNegationRoot
  split
  · rw [leafCount_deMorgan]
    exact f.leafCount_le_expandRoot
  · exact Nat.le_refl _

theorem leafCount_le_rewriteRoot (disguise push : Bool) (f : Formula) :
    f.leafCount ≤ (f.rewriteRoot disguise push).leafCount := by
  apply rewriteRoot_induction (motive := fun g => f.leafCount ≤ g.leafCount) (Nat.le_refl _)
  · intro g hLeaves
    exact Nat.le_trans hLeaves g.leafCount_le_disguiseRoot
  · intro g hLeaves
    exact Nat.le_trans hLeaves g.leafCount_le_pushNegationRoot

/-- A root that can be doubled is left as it is, or expanded, or expanded with its mark pushed. -/
theorem rewriteRoot_cases {f : Formula} (h : f.Doubles) (disguise push : Bool) :
    f.rewriteRoot disguise push = f ∨ f.rewriteRoot disguise push = f.expandRoot ∨
      f.rewriteRoot disguise push = f.expandRoot.deMorgan := by
  have hDisguise : f.disguiseRoot = f.expandRoot := by
    cases f with
    | literal => cases h
    | binary => rcases h with rfl | rfl <;> rfl
  by_cases hMark : (f.isNegated && !f.isLiteral) = true
  · cases disguise <;> cases push <;> simp [rewriteRoot, pushNegationRoot, hDisguise, hMark]
  · cases disguise <;> cases push <;> simp [rewriteRoot, pushNegationRoot, hDisguise, hMark]

/-- Neither side continues the chain of the root, and both are bounded by this together. -/
def Parted (n : Nat) : Formula → Prop
  | literal .. => False
  | binary op a b _ =>
    a.continues op = false ∧ b.continues op = false ∧ a.leafBound + b.leafBound = n

/-- Each of the two copies that expanding makes has one doubling less. -/
theorem leafBound_of_doubles {op : Connective} {a b : Formula} {negated : Bool}
    (h : (binary op a b negated).Doubles) : (binary op a b negated).leafBound =
      (join .and a b).leafBound + (join .and a b).leafBound := by
  have hOp : op = .xor ∨ op = .iff := h
  have hTwice : 2 ^ (1 + a.doublings + b.doublings) =
      2 ^ (a.doublings + b.doublings) + 2 ^ (a.doublings + b.doublings) := by
    rw [Nat.add_assoc, Nat.pow_add, pow_one, Nat.two_mul]
  simp [leafBound, leafCount, doublings, join, hOp, hTwice, Nat.mul_add]

/-- XOR and IFF expand into two parts that share the bound. -/
theorem parted_expandRoot {f : Formula} (h : f.Doubles) : f.expandRoot.Parted f.leafBound := by
  cases f with
  | literal => cases h
  | binary op a b negated =>
    rw [leafBound_of_doubles h]
    rcases h with rfl | rfl <;>
      exact ⟨rfl, rfl, by simp [leafBound, leafCount, doublings, join]⟩

/-- The mark of the disjunction goes to both conjunctions, and the chain that they would continue
ends there. -/
theorem parted_deMorgan_expandRoot {f : Formula} (h : f.Doubles) :
    f.expandRoot.deMorgan.Parted f.leafBound := by
  cases f with
  | literal => cases h
  | binary op a b negated =>
    cases negated with
    | false =>
      -- without a mark there is nothing to exchange
      have hUnmarked : (binary op a b false).expandRoot.deMorgan =
          (binary op a b false).expandRoot := by
        rcases h with rfl | rfl <;> rfl
      rw [hUnmarked]
      exact parted_expandRoot h
    | true =>
      rw [leafBound_of_doubles h]
      rcases h with rfl | rfl <;>
        exact ⟨rfl, rfl, by simp [leafBound, leafCount, doublings, join]⟩

/-- No other root is expanded into copies, nor does a move turn it into one that is. -/
theorem leafBound_disguiseRoot {f : Formula} (h : ¬ f.Doubles) :
    ¬ f.disguiseRoot.Doubles ∧ f.disguiseRoot.leafBound = f.leafBound := by
  cases f with
  | literal => exact ⟨h, rfl⟩
  | binary op a b negated =>
    cases op with
    | and | or | implies =>
      simp [Doubles, disguiseRoot, expandRoot, leafBound, leafCount, doublings]
    | xor => exact absurd (.inl rfl) h
    | iff => exact absurd (.inr rfl) h

/-- Unless the root doubles, moving its mark keeps the bound, and the root still does not double. -/
theorem leafBound_pushNegationRoot {f : Formula} (h : ¬ f.Doubles) :
    ¬ f.pushNegationRoot.Doubles ∧ f.pushNegationRoot.leafBound = f.leafBound := by
  cases f with
  | literal name negated => cases negated <;> exact ⟨h, rfl⟩
  | binary op a b negated =>
    cases negated with
    | false => exact ⟨h, rfl⟩
    | true =>
      cases op with
      | and | or | implies =>
        simp [Doubles, pushNegationRoot, isNegated, isLiteral, expandRoot, deMorgan,
          Connective.dual, join, leafBound, leafCount, doublings]
      | xor => exact absurd (.inl rfl) h
      | iff => exact absurd (.inr rfl) h

/-- Unless the root doubles, rewriting it keeps the bound. -/
theorem leafBound_rewriteRoot {f : Formula} (h : ¬ f.Doubles) (disguise push : Bool) :
    (f.rewriteRoot disguise push).leafBound = f.leafBound := by
  -- that the root does not double goes through both steps, along with the bound
  have hKept : ¬ (f.rewriteRoot disguise push).Doubles ∧
      (f.rewriteRoot disguise push).leafBound = f.leafBound := by
    apply rewriteRoot_induction (motive := fun g => ¬ g.Doubles ∧ g.leafBound = f.leafBound)
      ⟨h, rfl⟩
    · rintro g ⟨hDoubles, hBound⟩
      rw [← hBound]
      exact leafBound_disguiseRoot hDoubles
    · rintro g ⟨hDoubles, hBound⟩
      rw [← hBound]
      exact leafBound_pushNegationRoot hDoubles
  exact hKept.2

/-! ## The sides that are left -/

/-- After a permutation the sides stay within the bound that the formula had. -/
theorem sidesBounded_permute_of_leafBound_eq {n : Nat} {f : Formula} (h : f.leafBound = n)
    (p : Permutation) (s : σ) : (f.permute p s).1.SidesBounded n := by
  rw [← h, (reorders_permute p f s).leafBound_eq]
  exact sidesBounded_leafBound _

/-- Where no side continues the chain of the root, the sides can only change places. -/
theorem permute_of_not_continues {op : Connective} {a b : Formula} {negated : Bool}
    (hLeft : a.continues op = false) (hRight : b.continues op = false) (p : Permutation) (s : σ) :
    ((binary op a b negated).permute p s).1 = binary op a b negated ∨
      ((binary op a b negated).permute p s).1 = binary op b a negated := by
  unfold permute
  split
  next h =>
    -- all but the exchange of the sides ask for a side that goes on the chain
    cases p with
    | swap => exact .inr rfl
    | throughLeft | throughRight | across => simp [admits, hLeft, hRight] at h
  next => exact .inl rfl

/-- Parts that share a bound share it after a permutation. -/
theorem Parted.sidesBounded_permute {n : Nat} {f : Formula} (h : f.Parted n) (p : Permutation)
    (s : σ) : (f.permute p s).1.SidesBounded n := by
  cases f with
  | literal => cases h
  | binary op a b negated =>
    obtain ⟨hLeft, hRight, hSum⟩ := h
    rcases permute_of_not_continues hLeft hRight p s with hSame | hSwap
    · rw [hSame]
      exact hSum.le
    · rw [hSwap]
      exact ((Nat.add_comm _ _).trans hSum).le

/-- Whatever is done at a root, the sides it is left with are bounded by what the formula is. -/
theorem sidesBounded_shuffleRoot (shuffler : Shuffler) (f : Formula) (s : σ) :
    (f.shuffleRoot shuffler s).1.SidesBounded f.leafBound := by
  obtain ⟨disguise, push, p, s', hRoot⟩ := exists_shuffleRoot_eq shuffler f s
  rw [hRoot]
  -- a root that doubles spends its doubling when it is expanded; another keeps the bound
  by_cases hDoubles : f.Doubles
  · rcases rewriteRoot_cases hDoubles disguise push with h | h | h
    · rw [h]
      exact sidesBounded_permute_of_leafBound_eq rfl p s'
    · rw [h]
      exact (parted_expandRoot hDoubles).sidesBounded_permute p s'
    · rw [h]
      exact (parted_deMorgan_expandRoot hDoubles).sidesBounded_permute p s'
  · exact sidesBounded_permute_of_leafBound_eq (leafBound_rewriteRoot hDoubles _ _) p s'

theorem leafCount_le_shuffleRoot (shuffler : Shuffler) (f : Formula) (s : σ) :
    f.leafCount ≤ (f.shuffleRoot shuffler s).1.leafCount := by
  obtain ⟨disguise, push, p, s', hRoot⟩ := exists_shuffleRoot_eq shuffler f s
  rw [hRoot, ← (reorders_permute p _ s').leafCount_eq]
  exact f.leafCount_le_rewriteRoot disguise push

/-! ## A whole run -/

/-- The leaves of what a formula is shuffled to. -/
theorem leafCount_shuffle_bounds (shuffler : Shuffler) (f : Formula) (s : σ) :
    f.leafCount ≤ (f.shuffle shuffler s).1.leafCount ∧
      (f.shuffle shuffler s).1.leafCount ≤ f.leafBound := by
  apply shuffle_induction (motive := fun f _ result =>
    f.leafCount ≤ result.1.leafCount ∧ result.1.leafCount ≤ f.leafBound)
  case literal =>
    intro name negated s
    exact ⟨Nat.le_refl _, Nat.le_refl _⟩
  case binary =>
    intro f s op left right negated s₁ left' s₂ right' s₃ hRoot hLeft hRight
    have hLeaves := leafCount_le_shuffleRoot shuffler f s
    have hSides := sidesBounded_shuffleRoot shuffler f s
    rw [hRoot] at hLeaves hSides
    -- the sides lie between the leaves and the bound, and nothing is added above them
    simp only [leafCount, SidesBounded] at *
    omega

/-- A run that makes at most so many calls inside one another, and ends without an answer where a
dual is missing. -/
def shuffleWithin? (shuffler : Shuffler) : (calls : Nat) → Formula → σ → Option (Formula × σ)
  | 0, _, _ => none
  | _ + 1, literal name negated, s => some (literal name negated, s)
  | calls + 1, binary op a b negated, s =>
    match (binary op a b negated).shuffleRoot? shuffler s with
    | .error _ => none
    | .ok (literal name negated, s) => some (literal name negated, s)
    | .ok (binary op left right negated, s) => do
      let (left, s) ← shuffleWithin? shuffler calls left s
      let (right, s) ← shuffleWithin? shuffler calls right s
      return (binary op left right negated, s)

/-- A run ends. Its calls go as deep as its result, and one call is made at every literal. -/
theorem shuffleWithin?_eq (shuffler : Shuffler) (f : Formula) (s : σ) (calls : Nat) :
    f.shuffleWithin? shuffler calls s =
      if (f.shuffle shuffler s).1.depth < calls then some (f.shuffle shuffler s) else none := by
  revert calls
  apply shuffle_induction (motive := fun f s result => ∀ calls,
    f.shuffleWithin? shuffler calls s = if result.1.depth < calls then some result else none)
  case literal =>
    intro name negated s calls
    cases calls <;> rfl
  case binary =>
    intro f s op left right negated s₁ left' s₂ right' s₃ hRoot hLeft hRight calls
    obtain ⟨op', a, b, negated', rfl⟩ := exists_eq_binary_of_shuffleRoot_eq hRoot
    cases calls with
    | zero => rfl
    | succ calls =>
      simp only [shuffleWithin?, shuffleRoot?_eq, hRoot, depth_binary_lt_succ_iff, hLeft]
      -- the right side is shuffled only if the left one came out
      by_cases hLeft' : left'.depth < calls
      · by_cases hRight' : right'.depth < calls <;> simp [hLeft', hRight', hRight]
      · simp [hLeft']

/-- **Shuffling ends, and grows a formula within bounds**, whatever is drawn and however likely the
shuffler makes its moves. The leaves, doubled for each exclusive or and each equivalence, bound how
many calls are made inside one another. The result has no fewer leaves than the formula, and no
more than this. -/
theorem shuffle_grows_within_bounds (shuffler : Shuffler) (f : Formula) (s : σ) :
    (∀ calls, f.leafCount * 2 ^ f.doublings ≤ calls →
      f.shuffleWithin? shuffler calls s = some (f.shuffle shuffler s)) ∧
    f.leafCount ≤ (f.shuffle shuffler s).1.leafCount ∧
    (f.shuffle shuffler s).1.leafCount ≤ f.leafCount * 2 ^ f.doublings := by
  obtain ⟨hLow, hHigh⟩ := leafCount_shuffle_bounds shuffler f s
  refine ⟨?_, hLow, hHigh⟩
  intro calls hCalls
  have hDepth := depth_lt_leafCount (f.shuffle shuffler s).1
  rw [shuffleWithin?_eq, if_pos (Nat.lt_of_lt_of_le hDepth (Nat.le_trans hHigh hCalls))]

end Formula

end Propositional
