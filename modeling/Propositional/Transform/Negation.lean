import Propositional.Transform.Expansion

/-!
# Propositional — moving negation to the leaves

De Morgan's laws move a mark from a connective to its two sides. Where the
connective has no dual it is expanded first, so the move always succeeds
(`exists_dual_expandRoot`).

`Formula.pushNegationRoot` moves the mark of the root one level down.
`Formula.pushNegation` does so everywhere from the root on, and leaves marks on
literals only; unmarked connectives stay as they are, also those without a dual.
It is defined by carrying the pending negation down as a flag (`pushUnder`), so
that it recurses on the formula itself; `pushNegation_eq_descend` says that this
is the same as treating the root and then everything below the new root.

The negation normal form expands first and pushes negations then.

Exclusive or, implication and equivalence have no De Morgan dual, and asking for it is an
error. `deMorgan` leaves such a root alone; `deMorgan?` lets the error through, and
`pushNegationRoot?` is built on it. The two ways of moving a mark agree
(`pushNegationRoot?_eq`), so a transformation that is written with the `?` forms and
still always answers has never asked in vain.
-/

namespace Propositional.Formula

/-- De Morgan's law at the root: a marked connective with a dual passes its mark to both sides. -/
def deMorgan : Formula → Formula
  | binary op a b true =>
    match op.dual with
    | .ok dual => join dual a.negate b.negate
    | .error _ => binary op a b true
  | f => f

/-- Moves the mark of a connective at the root to its sides, expanding the connective if it has no
dual. -/
def pushNegationRoot (f : Formula) : Formula :=
  if f.isNegated && !f.isLiteral then f.expandRoot.deMorgan else f

/-- Moves all marks to the literals, with one more negation pending above the root if the flag
says so. -/
def pushUnder (pending : Bool) : Formula → Formula
  | literal name negated => literal name (negated ^^ pending)
  | binary op a b negated =>
    if negated ^^ pending then
      match op with
      | .and => join .or (a.pushUnder true) (b.pushUnder true)
      | .or => join .and (a.pushUnder true) (b.pushUnder true)
      | .implies => join .and (a.pushUnder false) (b.pushUnder true)
      | .xor =>
        join .and (join .or (a.pushUnder true) (b.pushUnder false))
          (join .or (a.pushUnder false) (b.pushUnder true))
      | .iff =>
        join .and (join .or (a.pushUnder true) (b.pushUnder true))
          (join .or (a.pushUnder false) (b.pushUnder false))
    else join op (a.pushUnder false) (b.pushUnder false)

/-- Moves all marks to the literals. -/
def pushNegation (f : Formula) : Formula := f.pushUnder false

/-- The negation normal form: conjunction and disjunction over literals. -/
def negationNormal (f : Formula) : Formula := f.expand.pushNegation

/-- A formula in which only literals carry marks. -/
def MarksLiterals : Formula → Prop
  | literal .. => True
  | binary _ a b negated => negated = false ∧ a.MarksLiterals ∧ b.MarksLiterals

/-- Whatever the root was, after expanding it De Morgan's law applies. -/
theorem exists_dual_expandRoot {f : Formula} {op : Connective}
    (h : f.expandRoot.connective? = some op) : ∃ dual, op.dual = .ok dual := by
  cases f with
  | literal => cases h
  | binary op' => cases op' <;> cases h <;> exact ⟨_, rfl⟩

/-- De Morgan's law keeps the value. -/
@[simp]
theorem eval_deMorgan (f : Formula) (v : Valuation) : f.deMorgan.eval v = f.eval v := by
  unfold deMorgan
  split
  next op a b =>
    split
    next dual h =>
      rw [eval_join, eval_negate, eval_negate, Connective.apply_dual h, eval, Bool.xor_true]
    next => rfl
  next => rfl

/-- A negation above the root and a pending one are the same. -/
theorem pushUnder_negate (pending : Bool) (f : Formula) :
    f.negate.pushUnder pending = f.pushUnder (!pending) := by
  cases f <;> simp [pushUnder]

/-- A pending negation complements the value, and no other negation is lost or added. -/
@[simp]
theorem eval_pushUnder (pending : Bool) (f : Formula) (v : Valuation) :
    (f.pushUnder pending).eval v = (f.eval v ^^ pending) := by
  induction f generalizing pending with
  | literal => simp [pushUnder, eval]
  | binary op a b negated iha ihb =>
    -- the mark and the pending negation together say what goes down to the sides
    cases op <;> cases negated <;> cases pending <;>
      simp only [pushUnder, eval, eval_join, iha, ihb, Connective.apply, Bool.xor_true,
        Bool.xor_false, Bool.false_eq_true, if_true, if_false, Bool.not_false, Bool.not_true] <;>
      cases a.eval v <;> cases b.eval v <;> rfl

theorem eval_pushNegation (f : Formula) (v : Valuation) : f.pushNegation.eval v = f.eval v := by
  simp [pushNegation]

/-- Whatever is pending, only literals carry marks in the end. -/
theorem marksLiterals_pushUnder (pending : Bool) (f : Formula) :
    (f.pushUnder pending).MarksLiterals := by
  induction f generalizing pending with
  | literal => trivial
  | binary op a b negated iha ihb =>
    unfold pushUnder
    split
    · cases op <;> simp [join, MarksLiterals, iha, ihb]
    · simp [join, MarksLiterals, iha, ihb]

/-- Pushing negations is treating the root and then everything below the new root. -/
theorem pushNegation_eq_descend (f : Formula) :
    f.pushNegation = f.pushNegationRoot.descend pushNegation := by
  cases f with
  | literal => simp [pushNegation, pushUnder, pushNegationRoot, isLiteral, descend]
  | binary op a b negated =>
    cases negated <;> cases op <;>
      simp [pushNegation, pushUnder, pushNegationRoot, isLiteral, isNegated, descend, expandRoot,
        deMorgan, Connective.dual, join, pushUnder_negate]

/-! ## No dual is missing -/

/-- De Morgan's law at the root, or the error of a connective without a dual. -/
def deMorgan? : Formula → Except NoDual Formula
  | binary op a b true => do
    let dual ← op.dual
    return join dual a.negate b.negate
  | f => .ok f

/-- Moves the mark of a connective at the root to its sides, unless a dual is missing. -/
def pushNegationRoot? (f : Formula) : Except NoDual Formula :=
  if f.isNegated && !f.isLiteral then f.expandRoot.deMorgan? else .ok f

/-- Where there is a dual, De Morgan's law applies without an error. -/
theorem deMorgan?_eq {f : Formula}
    (h : ∀ op, f.connective? = some op → ∃ dual, op.dual = .ok dual) :
    f.deMorgan? = .ok f.deMorgan := by
  cases f with
  | literal => rfl
  | binary op a b negated =>
    obtain ⟨dual, hDual⟩ := h op rfl
    cases negated with
    -- without a mark no dual is asked for
    | false => rfl
    | true =>
      simp only [deMorgan?, deMorgan, hDual]
      rfl

/-- Moving a mark never misses a dual. -/
theorem pushNegationRoot?_eq (f : Formula) : f.pushNegationRoot? = .ok f.pushNegationRoot := by
  unfold pushNegationRoot? pushNegationRoot
  split
  · exact deMorgan?_eq fun _ h => exists_dual_expandRoot h
  · rfl

end Propositional.Formula
