/-!
# Propositional — connectives

The five binary connectives, their truth functions and the algebra the rest of
the library leans on: which are associative, which are commutative, and which
have a De Morgan dual. The two normal forms are named here as well, because a
normal form is no more than the pair of connectives it nests.

Negation is not a connective: every formula carries it as a mark (see
`Propositional.Formula`).
-/

namespace Propositional

/-- A binary connective. The order of the constructors is the order `Connective.all` lists. -/
inductive Connective where
  | and
  | or
  | xor
  | implies
  | iff
  deriving DecidableEq

/-- The error of asking for the De Morgan dual of a connective that has none. -/
structure NoDual where
  connective : Connective
  deriving DecidableEq

namespace Connective

/-- Every connective, in declaration order. -/
def all : List Connective := [and, or, xor, implies, iff]

/-- The place of a connective in `all`. -/
def rank : Connective → Nat
  | and => 0
  | or => 1
  | xor => 2
  | implies => 3
  | iff => 4

/-- The connectives declared before this one. -/
def below (op : Connective) : List Connective := all.take op.rank

/-- The truth function of a connective. -/
def apply : Connective → Bool → Bool → Bool
  | and, a, b => a && b
  | or, a, b => a || b
  | xor, a, b => a ^^ b
  | implies, a, b => !a || b
  | iff, a, b => a == b

/-- Whether a chain of the connective may be read, and is written, without parentheses. -/
def isAssociative : Connective → Bool
  | and | or | xor => true
  | implies | iff => false

/-- Whether the two sides may change places. -/
def isCommutative : Connective → Bool
  | implies => false
  | and | or | xor | iff => true

/-- Whether a formula joined with itself is the formula again. -/
def isIdempotent : Connective → Bool
  | and | or => true
  | xor | implies | iff => false

/-- The connective that takes over when a negation is moved inside; only conjunction and
disjunction have one. -/
def dual : Connective → Except NoDual Connective
  | and => .ok or
  | or => .ok and
  | op => .error ⟨op⟩

/-- The mathematical sign of a connective. -/
def symbol : Connective → String
  | and => "∧"
  | or => "∨"
  | xor => "⊕"
  | implies => "⇒"
  | iff => "⇔"

/-- The capitalised English name, as messages use it. -/
def title : Connective → String
  | and => "And"
  | or => "Or"
  | xor => "Xor"
  | implies => "Implies"
  | iff => "Iff"

theorem mem_all (op : Connective) : op ∈ all := by
  cases op <;> decide

/-- The rank of a connective is its place in the list. -/
theorem all_getElem?_rank (op : Connective) : all[op.rank]? = some op := by
  cases op <;> rfl

/-- The associative connectives really are. -/
theorem apply_assoc {op : Connective} (h : op.isAssociative = true) (a b c : Bool) :
    op.apply (op.apply a b) c = op.apply a (op.apply b c) := by
  cases op <;> simp [isAssociative] at h <;> cases a <;> cases b <;> cases c <;> rfl

/-- The commutative connectives really are. -/
theorem apply_comm {op : Connective} (h : op.isCommutative = true) (a b : Bool) :
    op.apply a b = op.apply b a := by
  cases op <;> simp [isCommutative] at h <;> cases a <;> cases b <;> rfl

/-- The idempotent connectives really are, and the others are not. -/
theorem isIdempotent_iff {op : Connective} :
    op.isIdempotent = true ↔ ∀ a : Bool, op.apply a a = a := by
  cases op <;> decide

/-- De Morgan's law, for each connective that has a dual. -/
theorem apply_dual {op d : Connective} (h : op.dual = .ok d) (a b : Bool) :
    d.apply (!a) (!b) = !op.apply a b := by
  cases op <;> cases h <;> cases a <;> cases b <;> rfl

end Connective

/-- What is wrong, in words. -/
def NoDual.message (e : NoDual) : String :=
  s!"Operator {e.connective.title} has no De Morgan dual"

/-- The two canonical shapes: a conjunction of clauses, or a disjunction of terms. -/
inductive NormalForm where
  | cnf
  | dnf
  deriving DecidableEq

namespace NormalForm

/-- The connective between the groups. -/
def outer : NormalForm → Connective
  | cnf => .and
  | dnf => .or

/-- The connective inside a group, the dual of the outer one. -/
def inner : NormalForm → Connective
  | cnf => .or
  | dnf => .and

/-- The usual abbreviation. -/
def title : NormalForm → String
  | cnf => "CNF"
  | dnf => "DNF"

/-- The two connectives of a normal form are dual to each other. -/
theorem dual_outer (form : NormalForm) : form.outer.dual = .ok form.inner := by
  cases form <;> rfl

end NormalForm

end Propositional
