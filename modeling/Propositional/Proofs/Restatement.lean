import Mathlib.Data.List.Sort
import Propositional.Transform.Negation
import Propositional.Transform.Reordering
import Propositional.TruthTable

/-!
# Propositional — restatements

A transformation that is meant to keep a formula's meaning has to do two things:
the value must be the same under every valuation, and the names must be the same
set, because a table has its columns from there. `Formula.Restates` asks for both.

Restating is closed under everything formulas are built with, so it is enough to
know what happens at one root. The equations at the root are collected here; what
follows from them for whole formulas is an induction elsewhere.

Main results:

* `Formula.Restates.vocabulary_eq` — the ordered names are equal, not only the sets.
* `Formula.Restates.truthTable_eq` — the tables are equal, and where there are too
  many names for a table the errors are.
-/

namespace Propositional

/-- An ordered array is determined by its members. -/
theorem Names.Ordered.eq_of_mem_iff {names names' : Array String} (hOrd : Ordered names)
    (hOrd' : Ordered names') (hMem : ∀ name, name ∈ names ↔ name ∈ names') : names = names' := by
  have hList : names.toList = names'.toList := by
    apply List.Pairwise.eq_of_mem_iff hOrd hOrd'
    intro name
    simpa using hMem name
  exact Array.toList_inj.mp hList

namespace Formula

/-- The first formula has the value of the second everywhere, and the same names occur in it. -/
structure Restates (g f : Formula) : Prop where
  eval_eq : ∀ v : Valuation, g.eval v = f.eval v
  mem_names_iff : ∀ name : String, name ∈ g.names ↔ name ∈ f.names

namespace Restates

/-! ## Building restatements -/

theorem refl (f : Formula) : f.Restates f :=
  ⟨fun _ => rfl, fun _ => Iff.rfl⟩

/-- A restatement of a restatement is a restatement. -/
theorem trans {f g k : Formula} (h : k.Restates g) (h' : g.Restates f) : k.Restates f := by
  constructor
  · intro v
    rw [h.eval_eq, h'.eval_eq]
  · intro name
    rw [h.mem_names_iff, h'.mem_names_iff]

/-- Both sides of a connective may be restated. -/
theorem sides {op : Connective} {a a' b b' : Formula} {negated : Bool} (ha : a'.Restates a)
    (hb : b'.Restates b) : (binary op a' b' negated).Restates (binary op a b negated) := by
  constructor
  · intro v
    rw [eval, eval, ha.eval_eq, hb.eval_eq]
  · intro name
    rw [names_binary, names_binary, List.mem_append, List.mem_append, ha.mem_names_iff,
      hb.mem_names_iff]

/-- A reordering keeps even the number of times a name occurs. -/
theorem of_reorders {f g : Formula} (h : Reorders f g) : g.Restates f := by
  constructor
  · intro v
    exact (h.eval_eq v).symm
  · intro name
    -- a reordering permutes the names, so none is lost
    exact h.names_perm.mem_iff.symm

/-! ## What a restatement has in common with the formula -/

theorem equivalent {f g : Formula} (h : g.Restates f) : g.Equivalent f := h.eval_eq

/-- The names are listed alike. -/
theorem vocabulary_eq {f g : Formula} (h : g.Restates f) : g.vocabulary = f.vocabulary := by
  -- ordered names are settled by which names there are
  apply g.ordered_vocabulary.eq_of_mem_iff f.ordered_vocabulary
  intro name
  rw [mem_vocabulary, mem_vocabulary, h.mem_names_iff]

/-- The tables are equal, or both are refused for the same number of names. -/
theorem truthTable_eq {f g : Formula} (h : g.Restates f) : g.truthTable = f.truthTable := by
  have hEval : (fun row : Assignment => g.eval row.value) = fun row => f.eval row.value := by
    funext row
    exact h.eval_eq row.value
  -- the limit is asked of the same names
  rw [truthTable, truthTable, h.vocabulary_eq, hEval]

end Restates

/-! ## The root -/

/-- Expanding writes both sides once or twice and drops neither. -/
theorem mem_names_expandRoot (f : Formula) (name : String) :
    name ∈ f.expandRoot.names ↔ name ∈ f.names := by
  cases f with
  | literal => rfl
  | binary op a b negated =>
    cases op <;> simp [expandRoot, join] <;> grind

theorem restates_expandRoot (f : Formula) : f.expandRoot.Restates f :=
  ⟨f.eval_expandRoot, f.mem_names_expandRoot⟩

/-- De Morgan's law leaves every operand at its place. -/
@[simp]
theorem names_deMorgan (f : Formula) : f.deMorgan.names = f.names := by
  unfold deMorgan
  split
  next op a b =>
    split
    next => simp [join]
    next => rfl
  next => rfl

theorem restates_deMorgan (f : Formula) : f.deMorgan.Restates f := by
  constructor
  · exact f.eval_deMorgan
  · intro name
    rw [names_deMorgan]

/-- Where the mark is moved, the root is expanded first and De Morgan's law follows. -/
theorem restates_pushNegationRoot (f : Formula) : f.pushNegationRoot.Restates f := by
  unfold pushNegationRoot
  split
  · exact f.expandRoot.restates_deMorgan.trans f.restates_expandRoot
  · exact .refl f

end Formula

end Propositional
