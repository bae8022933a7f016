import Mathlib.Logic.Equiv.Defs
import Propositional.Proofs.Shuffling

/-!
# Propositional — a shuffler that only permutes

With no chance of a disguise and no chance of pushing a mark, all that is left to a
shuffler is to permute, and the result is a reordering of the formula
(`Formula.reorders_shuffle_permuting`).

What a reordering may not do is said here with places. It is a relation between whole
formulas and forgets which operand went where, so every reordering is given a bijection
of places along which the nodes move (`Reorders.exists_carries`). A node keeps its label.
Some nodes also keep what stands under them. An implication, an equivalence and a marked
connective are passed by no operand, into it or out of it, and an implication holds the
operands of each side on that side. Nodes of an associative chain are not among them:
there operands move from one node of the chain to the other.

Exchanging the two sides of a root and regrouping three operands move places in the same
way whatever the formula, so the bijections are of all places, whether something stands
there or not.

Main result: `Formula.shuffle_only_permutes`.
-/

namespace Propositional

/-! ## What stands in a formula -/

/-- What a node is, regardless of what stands below. -/
inductive Label where
  | literal (name : String) (negated : Bool)
  | connective (op : Connective) (negated : Bool)
  deriving DecidableEq

namespace Formula

/-- The label of the node at a place, if there is one. -/
def labelAt? : Formula → List Side → Option Label
  | literal name negated, [] => some (.literal name negated)
  | binary op _ _ negated, [] => some (.connective op negated)
  | literal .., _ :: _ => none
  | binary _ a _ _, .left :: path => a.labelAt? path
  | binary _ _ b _, .right :: path => b.labelAt? path

/-- The literals from left to right, with their marks. -/
def literals : Formula → List (String × Bool)
  | literal name negated => [(name, negated)]
  | binary _ a b _ => a.literals ++ b.literals

/-- The connectives from the root on, left before right, with their marks. -/
def connectives : Formula → List (Connective × Bool)
  | literal .. => []
  | binary op a b negated => (op, negated) :: (a.connectives ++ b.connectives)

end Formula

/-- The parts of a node that no operand enters or leaves, given by how they are reached from it:
all below it, for an implication, an equivalence and a marked connective; one side, for an
implication. -/
def Label.Encloses : Label → List Side → Prop
  | .literal .., _ => False
  | .connective op negated, [] => op = .implies ∨ op = .iff ∨ negated = true
  | .connective op _, [_] => op = .implies
  | .connective .., _ :: _ :: _ => False

namespace Label

variable {op : Connective} {negated : Bool} {part : List Side}

/-- Only an implication encloses its sides one by one. -/
theorem eq_nil_of_encloses (hOp : op ≠ .implies) (h : (connective op negated).Encloses part) :
    part = [] := by
  match part, h with
  | [], _ => rfl
  | [_], h => exact absurd h hOp

/-- A link of an associative chain encloses nothing. -/
theorem not_encloses_link (hOp : op.isAssociative = true) :
    ¬ (connective op false).Encloses part := by
  intro h
  match part, h with
  | [], h => rcases h with rfl | rfl | hMark <;> contradiction
  | [_], h =>
    cases h
    contradiction

end Label

/-! ## Moving places -/

namespace Place

/-- The two sides of the root change places. -/
def swap : List Side ≃ List Side where
  toFun
    | [] => []
    | .left :: path => .right :: path
    | .right :: path => .left :: path
  invFun
    | [] => []
    | .left :: path => .right :: path
    | .right :: path => .left :: path
  left_inv := by rintro (_ | ⟨_ | _, path⟩) <;> rfl
  right_inv := by rintro (_ | ⟨_ | _, path⟩) <;> rfl

/-- Three operands that were grouped to the right are grouped to the left. The root stays, and the
node of the pair goes from the right side to the left. -/
def toLeft : List Side ≃ List Side where
  toFun
    | [] => []
    | .left :: path => .left :: .left :: path
    | [.right] => [.left]
    | .right :: .left :: path => .left :: .right :: path
    | .right :: .right :: path => .right :: path
  invFun
    | [] => []
    | [.left] => [.right]
    | .left :: .left :: path => .left :: path
    | .left :: .right :: path => .right :: .left :: path
    | .right :: path => .right :: .right :: path
  left_inv := by rintro (_ | ⟨_ | _, _ | ⟨_ | _, path⟩⟩) <;> rfl
  right_inv := by rintro (_ | ⟨_ | _, _ | ⟨_ | _, path⟩⟩) <;> rfl

/-- Places move on both sides of the root. -/
def sides (onLeft onRight : List Side ≃ List Side) : List Side ≃ List Side where
  toFun
    | [] => []
    | .left :: path => .left :: onLeft path
    | .right :: path => .right :: onRight path
  invFun
    | [] => []
    | .left :: path => .left :: onLeft.symm path
    | .right :: path => .right :: onRight.symm path
  left_inv := by rintro (_ | ⟨_ | _, path⟩) <;> simp
  right_inv := by rintro (_ | ⟨_ | _, path⟩) <;> simp

end Place

/-! ## Along a reordering -/

/-- The nodes of one formula become those of another by moving to other places. They keep their
labels, and none of them enters or leaves what a node encloses. -/
structure Carries (move : List Side ≃ List Side) (f g : Formula) : Prop where
  labelAt?_eq : ∀ place, g.labelAt? (move place) = f.labelAt? place
  stays : ∀ place label part, f.labelAt? place = some label → label.Encloses part →
    ∀ inner, place ++ part <+: inner ↔ move place ++ part <+: move inner

namespace Carries

variable {f g k a a' b b' c : Formula} {op : Connective} {negated : Bool}
variable {move move' : List Side ≃ List Side}

theorem refl (f : Formula) : Carries (.refl _) f f :=
  ⟨fun _ => rfl, fun _ _ _ _ _ _ => Iff.rfl⟩

/-- A move is carried back by its inverse. -/
theorem symm (h : Carries move f g) : Carries move.symm g f where
  labelAt?_eq place := by rw [← h.labelAt?_eq, Equiv.apply_symm_apply]
  stays place _ _ hLabel hEncloses inner := by
    rw [← Equiv.apply_symm_apply move place, h.labelAt?_eq] at hLabel
    have hStays := h.stays _ _ _ hLabel hEncloses (move.symm inner)
    rw [Equiv.apply_symm_apply, Equiv.apply_symm_apply] at hStays
    exact hStays.symm

/-- Of two moves in a row, the second carries on what the first carried. -/
theorem trans (h : Carries move f g) (h' : Carries move' g k) :
    Carries (move.trans move') f k where
  labelAt?_eq place := (h'.labelAt?_eq _).trans (h.labelAt?_eq place)
  stays place _ _ hLabel hEncloses inner :=
    (h.stays _ _ _ hLabel hEncloses inner).trans
      (h'.stays _ _ _ ((h.labelAt?_eq place).trans hLabel) hEncloses _)

/-- Moves within the two sides are carried side by side. -/
theorem sides (ha : Carries move a a') (hb : Carries move' b b') :
    Carries (Place.sides move move') (.binary op a b negated) (.binary op a' b' negated) where
  labelAt?_eq place := by
    match place with
    | [] => rfl
    | .left :: path => exact ha.labelAt?_eq path
    | .right :: path => exact hb.labelAt?_eq path
  stays place label part hLabel hEncloses inner := by
    match place, inner with
    | [], inner =>
      -- what is below the root, or on a side of it, stays there
      cases hLabel
      match part, hEncloses, inner with
      | [], _, _ => simp [Place.sides]
      | [_], _, [] | [_], _, .left :: _ | [_], _, .right :: _ => simp [Place.sides]
    | .left :: path, .left :: inner =>
      simpa [Place.sides] using ha.stays path label part hLabel hEncloses inner
    | .right :: path, .right :: inner =>
      simpa [Place.sides] using hb.stays path label part hLabel hEncloses inner
    | .left :: _, [] | .left :: _, .right :: _ | .right :: _, [] | .right :: _, .left :: _ =>
      simp [Place.sides]

/-- The exchange of the sides of a commutative connective carries each side as a whole. -/
theorem swap (hOp : op.isCommutative = true) :
    Carries Place.swap (.binary op a b negated) (.binary op b a negated) where
  labelAt?_eq place := by
    match place with
    | [] | .left :: _ | .right :: _ => rfl
  stays place label part hLabel hEncloses inner := by
    match place, inner with
    | [], _ =>
      cases hLabel
      have hOp : op ≠ .implies := by rintro rfl; contradiction
      simp [Label.eq_nil_of_encloses hOp hEncloses, Place.swap]
    | .left :: _, .left :: _ | .right :: _, .right :: _
    | .left :: _, [] | .left :: _, .right :: _ | .right :: _, [] | .right :: _, .left :: _ =>
      simp [Place.swap]

/-- Regrouping an associative connective carries each of the three operands as a whole. -/
theorem toLeft (hOp : op.isAssociative = true) :
    Carries Place.toLeft (.binary op a (.join op b c) negated)
      (.binary op (.join op a b) c negated) where
  labelAt?_eq place := by
    match place with
    | [] | .left :: _ | [.right] | .right :: .left :: _ | .right :: .right :: _ => rfl
  stays place label part hLabel hEncloses inner := by
    match place with
    | [] =>
      cases hLabel
      have hOp : op ≠ .implies := by rintro rfl; contradiction
      simp [Label.eq_nil_of_encloses hOp hEncloses, Place.toLeft]
    | [.right] =>
      -- the node of the pair is the one that operands pass
      cases hLabel
      exact absurd hEncloses (Label.not_encloses_link hOp)
    | .left :: _ | .right :: .left :: _ | .right :: .right :: _ =>
      -- a place within one of the three operands moves with all below it
      match inner with
      | [] | .left :: _ | [.right] | .right :: .left :: _ | .right :: .right :: _ =>
        simp [Place.toLeft]

end Carries

namespace Reorders

variable {f g : Formula}

/-- Every reordering moves the nodes. -/
theorem exists_carries (h : Reorders f g) : ∃ move, Carries move f g := by
  -- each constructor has its own move, and a chain of steps the moves in a row
  induction h with
  | refl f => exact ⟨_, .refl f⟩
  | trans _ _ ih ih' =>
    obtain ⟨move, hCarries⟩ := ih
    obtain ⟨move', hCarries'⟩ := ih'
    exact ⟨_, hCarries.trans hCarries'⟩
  | sides _ _ iha ihb =>
    obtain ⟨move, hLeft⟩ := iha
    obtain ⟨move', hRight⟩ := ihb
    exact ⟨_, hLeft.sides hRight⟩
  | swap hOp => exact ⟨_, .swap hOp⟩
  | toLeft hOp => exact ⟨_, .toLeft hOp⟩
  | toRight hOp => exact ⟨_, (Carries.toLeft hOp).symm⟩

/-- A reordering has the same literals as often. -/
theorem literals_perm (h : Reorders f g) : f.literals.Perm g.literals := by
  induction h with
  | refl => exact .refl _
  | trans _ _ ih ih' => exact ih.trans ih'
  | sides _ _ iha ihb => exact iha.append ihb
  | swap => exact List.perm_append_comm
  | toLeft | toRight => simp [Formula.literals, Formula.join]

/-- A reordering has the same connectives as often. -/
theorem connectives_perm (h : Reorders f g) : f.connectives.Perm g.connectives := by
  induction h with
  | refl => exact .refl _
  | trans _ _ ih ih' => exact ih.trans ih'
  | sides _ _ iha ihb => exact (iha.append ihb).cons _
  | swap => exact List.perm_append_comm.cons _
  | toLeft => simp [Formula.connectives, Formula.join, List.perm_middle]
  | toRight => simp [Formula.connectives, Formula.join, List.perm_middle.symm]

end Reorders

/-! ## The shuffler -/

/-- The shuffler that only permutes. -/
def Shuffler.permuting : Shuffler where
  disguise := .never
  push := .never

/-- No word is below zero. -/
theorem Source.flip_never (s : Source) : (s.flip .never).1 = false := by
  simp [flip, Chance.never]

namespace Formula

/-- With no chance of anything else, the work at a root is to permute. -/
theorem reorders_shuffleRoot_permuting (f : Formula) (s : Source) :
    Reorders f (f.shuffleRoot .permuting s).1 := by
  simp only [shuffleRoot, Shuffler.permuting, Source.draws_flip, Source.flip_never]
  exact reorders_permute _ f _

/-- The sides that the work at a root leaves are reordered in turn. -/
theorem reorders_shuffle_permuting (f : Formula) (s : Source) :
    Reorders f (f.shuffle .permuting s).1 := by
  apply shuffle_induction (motive := fun f _ result => Reorders f result.1)
  case literal =>
    intro name negated s
    exact .refl _
  case binary =>
    intro f s op left right negated s₁ left' s₂ right' s₃ hRoot hLeft hRight
    -- first the root is permuted, then the sides that this leaves
    have hReorders := reorders_shuffleRoot_permuting f s
    rw [hRoot] at hReorders
    exact hReorders.trans (.sides hLeft hRight)

/-- **A shuffler without other chances only permutes.** Whatever is drawn, its result is a
reordering, with the same literals and the same connectives, marks included. The nodes move to
other places and keep their labels. What is below an implication, an equivalence or a marked
connective, which are the places that begin with its own, moves below the same node and nothing
else does. What is on a side of an implication moves to the same side of it. -/
theorem shuffle_only_permutes (f : Formula) (s : Source) :
    Reorders f (f.shuffle .permuting s).1 ∧
    f.literals.Perm (f.shuffle .permuting s).1.literals ∧
    f.connectives.Perm (f.shuffle .permuting s).1.connectives ∧
    ∃ move : List Side ≃ List Side,
      (∀ place, (f.shuffle .permuting s).1.labelAt? (move place) = f.labelAt? place) ∧
      (∀ place op negated, f.labelAt? place = some (.connective op negated) →
        (op = .implies ∨ op = .iff ∨ negated = true) →
        ∀ inner, place <+: inner ↔ move place <+: move inner) ∧
      (∀ place negated, f.labelAt? place = some (.connective .implies negated) →
        ∀ side inner, place ++ [side] <+: inner ↔ move place ++ [side] <+: move inner) := by
  have hReorders := reorders_shuffle_permuting f s
  obtain ⟨move, hCarries⟩ := hReorders.exists_carries
  refine ⟨hReorders, hReorders.literals_perm, hReorders.connectives_perm, move,
    hCarries.labelAt?_eq, ?_, ?_⟩
  -- what encloses its operands keeps them below it; an implication each on its own side
  · intro place op negated hLabel hClosed inner
    have hStays := hCarries.stays place _ [] hLabel hClosed inner
    rwa [List.append_nil, List.append_nil] at hStays
  · intro place negated hLabel side inner
    exact hCarries.stays place _ [side] hLabel rfl inner

end Formula

end Propositional
