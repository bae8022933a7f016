import Propositional.Formula

/-!
# Propositional — valuations and truth

A valuation gives every name a truth value; `Formula.eval` extends it to
formulas. Two formulas are equivalent if no valuation tells them apart, whatever
names they use.

The value depends only on the names that occur (`Formula.eval_congr`), which is
why finitely many rows decide equivalence.
-/

namespace Propositional

/-- A truth value for every name. -/
abbrev Valuation := String → Bool

namespace Formula

/-- The truth value of a formula. A mark complements what stands under it. -/
def eval (v : Valuation) : Formula → Bool
  | literal name negated => v name ^^ negated
  | binary op left right negated => op.apply (left.eval v) (right.eval v) ^^ negated

/-- Two formulas with the same value under every valuation. -/
def Equivalent (f g : Formula) : Prop :=
  ∀ v : Valuation, f.eval v = g.eval v

/-- The mark of the root complements the value. -/
@[simp]
theorem eval_negate (f : Formula) (v : Valuation) : f.negate.eval v = !f.eval v := by
  cases f <;> simp [eval]

/-- A negation under a condition complements the value under this condition. -/
@[simp]
theorem eval_negateIf (condition : Bool) (f : Formula) (v : Valuation) :
    (f.negateIf condition).eval v = (f.eval v ^^ condition) := by
  cases condition <;> simp [negateIf]

@[simp]
theorem eval_join (op : Connective) (left right : Formula) (v : Valuation) :
    (join op left right).eval v = op.apply (left.eval v) (right.eval v) := by
  simp [join, eval]

/-- The value depends only on the names that occur. -/
theorem eval_congr {f : Formula} {v w : Valuation} (h : ∀ name ∈ f.names, v name = w name) :
    f.eval v = f.eval w := by
  induction f with
  | literal name negated => simp [eval, h name (by simp)]
  | binary op left right negated ihl ihr =>
    simp only [names_binary, List.mem_append] at h
    simp only [eval, ihl fun name hn => h name (Or.inl hn), ihr fun name hn => h name (Or.inr hn)]

theorem Equivalent.refl (f : Formula) : f.Equivalent f := fun _ => rfl

theorem Equivalent.symm {f g : Formula} (h : f.Equivalent g) : g.Equivalent f :=
  fun v => (h v).symm

theorem Equivalent.trans {f g k : Formula} (h : f.Equivalent g) (h' : g.Equivalent k) :
    f.Equivalent k :=
  fun v => (h v).trans (h' v)

instance : Std.Symm Equivalent where
  symm _ _ := Equivalent.symm

instance : Trans Equivalent Equivalent Equivalent where
  trans := Equivalent.trans

end Formula

end Propositional
