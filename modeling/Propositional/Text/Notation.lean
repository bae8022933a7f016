import Propositional.Formula
import Propositional.Text.Token

/-!
# Propositional — writing a formula

Parentheses are left out around the whole formula and around an unmarked side
that continues an associative connective of the formula it stands in
(`A ∧ B ∧ C`). Every other side that is not a literal gets them, so what is
written never depends on precedence.

Whether a text can be read back depends on the names (`Formula.HasWords`) and on how
deep a reader has to go (`Formula.textLevel`). A printed pair of parentheses is a level;
so is every operator that stands before an operand in its chain, because a reader takes
all the rest of a chain as the right side of each operator.
-/

namespace Propositional

/-- The signs a formula is written with. -/
inductive Notation where
  | unicode
  | ascii
  | latex
  deriving DecidableEq

namespace Notation

/-- The sign of negation, with the space that follows it. -/
def negation : Notation → String
  | unicode => "¬"
  | ascii => "NOT "
  | latex => "\\neg "

/-- The sign of a connective. -/
def connective : Notation → Connective → String
  | unicode, op => op.symbol
  | ascii, .and => "AND"
  | ascii, .or => "OR"
  | ascii, .xor => "XOR"
  | ascii, .implies => "=>"
  | ascii, .iff => "<=>"
  | latex, .and => "\\land"
  | latex, .or => "\\lor"
  | latex, .xor => "\\oplus"
  | latex, .implies => "\\Rightarrow"
  | latex, .iff => "\\Leftrightarrow"

/-- The sign of negation if there is one to write. -/
def mark (style : Notation) (negated : Bool) : String :=
  if negated then style.negation else ""

end Notation

namespace Formula

/-- Whether a binary formula is written without parentheses: only without a mark, and as a whole
or within an associative chain of its own connective. -/
def isBare (parent : Option Connective) (op : Connective) (negated : Bool) : Bool :=
  !negated && (parent == none || parent == some op && op.isAssociative)

/-- The text of a formula that stands under a connective, or alone. -/
def renderUnder (style : Notation) (parent : Option Connective) : Formula → String
  | literal name negated => style.mark negated ++ name
  | binary op left right negated =>
    let body := left.renderUnder style (some op) ++ " " ++ style.connective op ++ " " ++
      right.renderUnder style (some op)
    if isBare parent op negated then body else style.mark negated ++ "(" ++ body ++ ")"

/-- The text of a formula. -/
def render (style : Notation) (f : Formula) : String := f.renderUnder style none

/-! ## What can be read back -/

/-- Every name that occurs in the formula is a word. -/
def HasWords (f : Formula) : Prop :=
  ∀ name ∈ f.names, IsWord name

/-- A connective has no name, so the words are those of its two sides. -/
theorem hasWords_binary {op : Connective} {a b : Formula} {negated : Bool} :
    (binary op a b negated).HasWords ↔ a.HasWords ∧ b.HasWords := by
  simp only [HasWords, names_binary, List.mem_append]
  exact ⟨fun h => ⟨fun name hn => h name (Or.inl hn), fun name hn => h name (Or.inr hn)⟩,
    fun h name hn => hn.elim (h.1 name) (h.2 name)⟩

/-- The number of operators in the chain of a connective that the formula starts with. -/
def chainLinks (op : Connective) : Formula → Nat
  | binary op' a b false => if op' = op then a.chainLinks op + 1 + b.chainLinks op else 0
  | _ => 0

/-- The level of the deepest operand in the text of a formula, which stands under a connective or
alone and begins at a level. -/
def textLevel (parent : Option Connective) (level : Nat) : Formula → Nat
  | literal .. => level
  | binary op a b negated =>
    let start := if isBare parent op negated then level else level + 1
    let passed := 1 + if op.isAssociative then a.chainLinks op else 0
    max (a.textLevel (some op) start) (b.textLevel (some op) (start + passed))

end Formula

end Propositional
