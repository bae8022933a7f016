import Mathlib.Data.List.Induction
import Propositional.NormalForm

/-!
# Propositional — joins of lists

A list of formulas is joined from the left, so its join grows at its end, and whatever is to
be known of it is known by going along (`Formula.joinAll?_induction`): its value, its names,
its shape.

The value is looked at from one side only. Conjunction absorbs falsity and disjunction
absorbs truth: one formula with the absorbed value gives it to the whole join
(`Formula.eval_joinAll?_eq_iff`). For the connectives of a normal form both sides come down
to the value that the form has groups for, which the outer connective absorbs while the
inner one absorbs its opposite.
-/

namespace Propositional

variable {op : Connective} {value : Bool} {form : NormalForm} {f g : Formula} {fs : List Formula}
  {v : Valuation}

/-! ## Values that decide -/

/-- One side with the value decides that the whole has it, and nothing else does. -/
def Connective.Absorbs (op : Connective) (value : Bool) : Prop :=
  ∀ a b : Bool, op.apply a b = value ↔ a = value ∨ b = value

/-- The value of the rows that have groups decides the join of the groups. -/
theorem NormalForm.absorbs_outer (form : NormalForm) : form.outer.Absorbs form.groupedValue := by
  cases form <;> unfold Connective.Absorbs <;> decide

/-- The other value decides a group. -/
theorem NormalForm.absorbs_inner (form : NormalForm) :
    form.inner.Absorbs (!form.groupedValue) := by
  cases form <;> unfold Connective.Absorbs <;> decide

theorem NormalForm.inner_ne_outer (form : NormalForm) : form.inner ≠ form.outer := by
  cases form <;> decide

namespace Formula

/-! ## Joins of lists -/

/-- **Induction over a join of a list**, which grows at its end. -/
theorem joinAll?_induction {motive : List Formula → Formula → Prop}
    (single : ∀ f, motive [f] f)
    (snoc : ∀ fs g f, motive fs g → motive (fs ++ [f]) (join op g f))
    (h : joinAll? op fs = some g) : motive fs g := by
  induction fs using List.reverseRecOn generalizing g with
  | nil => cases h
  | append_singleton fs f ih =>
    cases fs with
    | nil =>
      cases h
      exact single f
    | cons first rest =>
      -- what comes before the last formula has a join of its own
      have hJoin : g = join op (rest.foldl (join op) first) f := by
        rw [List.cons_append, joinAll?, List.foldl_append, Option.some.injEq] at h
        exact h.symm
      rw [hJoin]
      exact snoc _ _ f (ih rfl)

theorem exists_joinAll?_eq_some (hMem : f ∈ fs) : ∃ g, joinAll? op fs = some g := by
  cases fs with
  | nil => cases hMem
  | cons first rest => exact ⟨_, rfl⟩

/-- A value that is absorbed is the value of a join if and only if it is that of a member. -/
theorem eval_joinAll?_eq_iff (hAbsorbs : op.Absorbs value) (h : joinAll? op fs = some g) :
    g.eval v = value ↔ ∃ f ∈ fs, f.eval v = value := by
  refine joinAll?_induction (motive := fun fs g => g.eval v = value ↔ ∃ f ∈ fs, f.eval v = value)
    ?_ ?_ h
  · intro f
    simp
  · intro fs g f ih
    rw [eval_join, hAbsorbs, ih]
    simp only [List.mem_append, List.mem_singleton, or_and_right, exists_or, exists_eq_left]

/-- The names of a join are those of the members, in order. -/
theorem names_joinAll? (h : joinAll? op fs = some g) : g.names = fs.flatMap Formula.names := by
  refine joinAll?_induction (motive := fun fs g => g.names = fs.flatMap Formula.names) ?_ ?_ h
  · intro f
    simp
  · intro fs g f ih
    simp [join, ih]

/-- What passes from two formulas to their join passes from a list to its join. -/
theorem joinAll?_of_forall {p : Formula → Prop} (hJoin : ∀ a b, p a → p b → p (join op a b))
    (hMem : ∀ f ∈ fs, p f) (h : joinAll? op fs = some g) : p g := by
  refine joinAll?_induction (motive := fun fs g => (∀ f ∈ fs, p f) → p g) ?_ ?_ h hMem
  · intro f hMem
    exact hMem f (List.mem_singleton_self f)
  · intro fs g f ih hMem
    -- the last member was joined to the join of those before it
    obtain ⟨hInit, hLast⟩ := List.forall_mem_append.mp hMem
    exact hJoin g f (ih hInit) (hLast f (List.mem_singleton_self f))

/-- A join has the leaves of its members. -/
theorem leafCount_joinAll? {n : Nat} (hMem : ∀ f ∈ fs, f.leafCount = n)
    (h : joinAll? op fs = some g) : g.leafCount = n * fs.length := by
  refine joinAll?_induction
    (motive := fun fs g => (∀ f ∈ fs, f.leafCount = n) → g.leafCount = n * fs.length) ?_ ?_ h hMem
  · intro f hMem
    rw [hMem f (List.mem_singleton_self f), List.length_singleton, Nat.mul_one]
  · intro fs g f ih hMem
    obtain ⟨hInit, hLast⟩ := List.forall_mem_append.mp hMem
    rw [join, leafCount, ih hInit, hLast f (List.mem_singleton_self f), List.length_append,
      List.length_singleton, Nat.mul_succ]

/-- From the left, the members of a join can be read off if their number is known. -/
theorem foldl_join_injective {gs : List Formula} (hLength : fs.length = gs.length)
    (h : fs.foldl (join op) f = gs.foldl (join op) g) : f = g ∧ fs = gs := by
  induction fs generalizing gs f g with
  | nil =>
    obtain rfl : gs = [] := List.length_eq_zero_iff.mp hLength.symm
    exact ⟨h, rfl⟩
  | cons x fs ih =>
    cases gs with
    | nil => cases hLength
    | cons y gs =>
      -- the members behind the second are settled; these two stand under the innermost join
      obtain ⟨hJoin, rfl⟩ := ih (Nat.succ.inj hLength) h
      cases hJoin
      exact ⟨rfl, rfl⟩

/-- Lists of the same length with the same join are the same. -/
theorem joinAll?_injective {gs : List Formula} (hLength : fs.length = gs.length)
    (h : joinAll? op fs = joinAll? op gs) : fs = gs := by
  cases fs with
  | nil => exact (List.length_eq_zero_iff.mp hLength.symm).symm
  | cons x fs =>
    cases gs with
    | nil => cases hLength
    | cons y gs =>
      obtain ⟨rfl, rfl⟩ := foldl_join_injective (Nat.succ.inj hLength) (Option.some.inj h)
      rfl

/-! ## Shapes -/

theorem isGroupOf_joinAll? (hMem : ∀ f ∈ fs, f.isGroupOf op = true)
    (h : joinAll? op fs = some g) : g.isGroupOf op = true := by
  apply joinAll?_of_forall (p := fun f => f.isGroupOf op = true) _ hMem h
  intro a b ha hb
  simp [join, isGroupOf, ha, hb]

theorem isNormal_joinAll? (hMem : ∀ f ∈ fs, f.isNormal form = true)
    (h : joinAll? form.outer fs = some g) : g.isNormal form = true := by
  apply joinAll?_of_forall (p := fun f => f.isNormal form = true) _ hMem h
  intro a b ha hb
  simp [join, isNormal, ha, hb]

/-- A group by itself is a normal form, for it is no join by the outer connective. -/
theorem isNormal_of_isGroupOf (h : f.isGroupOf form.inner = true) : f.isNormal form = true := by
  cases f with
  | literal => rfl
  | binary op left right negated =>
    have hOp : op = form.inner := by
      simp only [isGroupOf, Bool.and_eq_true, beq_iff_eq] at h
      exact h.1.2
    -- a join by the inner connective has to be a group, which it is
    rw [isNormal, if_neg, h]
    simp [hOp, form.inner_ne_outer]

end Formula

end Propositional
