import Propositional.Formula
import Propositional.Text.ParseError
import Propositional.Text.Token

/-!
# Propositional — the grammar of formulas

Which tokens spell which formula, said without reference to any reader:

* an expression is an operand, or an operand, an operator and an expression;
* an operand is an atom, or a negation and an atom;
* an atom is a variable, or an expression in parentheses.

Operators have no precedence and the right side of an operator is all the rest.
A derivation also keeps count of levels: what stands in parentheses, and what
follows an operator, is one level deeper. It records the level of the deepest
operand within, so that the same grammar can be read with the limit
(`deepest ≤ maxLevel`) and without.
-/

namespace Propositional

/-- The parts of speech of a written formula. -/
inductive Phrase where
  | expression
  | operand
  | atom
  deriving DecidableEq

/-- `Derives phrase level tokens f deepest` says that the tokens are such a phrase, that it spells
`f`, and that the deepest operand within stands at level `deepest` if the phrase stands at
`level`. -/
inductive Derives : Phrase → Nat → List Token → Formula → Nat → Prop
  | name {level : Nat} (name : String) (offset : Nat) :
    Derives .atom level [⟨.name, name, offset⟩] (.var name) level
  | parentheses {level deepest : Nat} {tokens : List Token} {f : Formula}
    (opening closing : Token) (hOpening : opening.kind = .opening)
    (hClosing : closing.kind = .closing)
    (h : Derives .expression (level + 1) tokens f deepest) :
    Derives .atom level (opening :: tokens ++ [closing]) f deepest
  | plain {level deepest : Nat} {tokens : List Token} {f : Formula}
    (h : Derives .atom level tokens f deepest) :
    Derives .operand level tokens f deepest
  | negated {level deepest : Nat} {tokens : List Token} {f : Formula} (negation : Token)
    (hNegation : negation.kind = .negation) (h : Derives .atom level tokens f deepest) :
    Derives .operand level (negation :: tokens) f.negate deepest
  | last {level deepest : Nat} {tokens : List Token} {f : Formula}
    (h : Derives .operand level tokens f deepest) :
    Derives .expression level tokens f deepest
  | chain {level deepest deepest' : Nat} {tokens rest : List Token} {f g : Formula}
    (op : Connective) (operator : Token) (hOperator : operator.kind = .connective op)
    (h : Derives .operand level tokens f deepest)
    (hRest : Derives .expression (level + 1) rest g deepest') :
    Derives .expression level (tokens ++ operator :: rest) (.join op f g) (max deepest deepest')

namespace Derives

/-- The deepest operand stands no higher than the phrase. -/
theorem le_deepest {phrase : Phrase} {level deepest : Nat} {tokens : List Token} {f : Formula}
    (h : Derives phrase level tokens f deepest) : level ≤ deepest := by
  induction h with
  | name => exact Nat.le_refl _
  | parentheses _ _ _ _ _ ih => omega
  | plain _ ih | negated _ _ _ ih | last _ ih => exact ih
  | chain _ _ _ _ _ ih => exact Nat.le_trans ih (Nat.le_max_left _ _)

end Derives

end Propositional
