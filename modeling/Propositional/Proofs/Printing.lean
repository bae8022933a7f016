import Propositional.Proofs.Cutting
import Propositional.Proofs.Regrouping
import Propositional.Text.Grammar

/-!
# Propositional — what a printed formula says

The printer decides from a formula and its parent alone which parentheses to leave
out, and the grammar has no precedence that could put them back. This module shows
that nothing is lost but the grouping of chains.

* A printed formula is cut into the tokens that it was printed from
  (`senses_renderUnder`), whatever follows it, as long as that begins with a
  blank or a parenthesis. The two notations that can be read have the same tokens.
* These tokens derive the regrouped formula, and the deepest operand stands exactly
  at the level that `Formula.textLevel` counts (`Formula.prints`).

The second is an induction over the formula with two statements at once. A printed
formula is an expression; and a printed side, followed by its connective and any
expression, is an expression as well, in which the two are attached
(`Formula.Prints`). The latter is what goes through a chain: its operands are not
printed as one phrase, because all the rest of the chain is the right side of each
operator.
-/

namespace Propositional

open Token

variable {phrase : Phrase} {level deepest : Nat} {tokens : List Token} {f g a b : Formula}

/-! ## The tokens of a printed formula -/

/-- The sign of negation if there is one to write. -/
def Token.mark (negated : Bool) : List Token :=
  if negated then [sign .negation] else []

namespace Formula

/-- The tokens that a formula is printed from, under a connective or alone. -/
def tokensUnder (parent : Option Connective) : Formula → List Token
  | literal name negated => Token.mark negated ++ [⟨.name, name, 0⟩]
  | binary op left right negated =>
    let body := left.tokensUnder (some op) ++ sign (.connective op) :: right.tokensUnder (some op)
    if isBare parent op negated then body
    else Token.mark negated ++ (sign .opening :: body ++ [sign .closing])

end Formula

/-! ## Cutting a printed formula -/

section Cutting

variable {style : Notation} {rest : List Char}

/-- A keyword is one word, because it stands between blanks. -/
theorem senses_keyword {keyword : List Char} (hKeyword : Unbroken keyword) (hNe : keyword ≠ [])
    (hKind : wordKind keyword ≠ .name) :
    senses (keyword ++ ' ' :: rest) = (wordKind keyword, none) :: senses rest := by
  rw [senses_unbroken hKeyword hNe atBoundary_blank, senses_blank rfl, sense, if_neg hKind]

/-- The sign of a connective is read as the connective, up to the blank behind it. -/
theorem senses_connective (hStyle : style ≠ .latex) (op : Connective) :
    senses ((style.connective op).toList ++ ' ' :: rest) =
      (.connective op, none) :: senses rest := by
  have hBlank : senses (' ' :: rest) = senses rest := senses_blank rfl
  have hAnd : Unbroken ['A', 'N', 'D'] := by decide
  have hOr : Unbroken ['O', 'R'] := by decide
  have hXor : Unbroken ['X', 'O', 'R'] := by decide
  cases style with
  | unicode =>
    rw [← hBlank]
    cases op <;> exact senses_lexeme rfl rfl
  | ascii =>
    cases op with
    | and => exact senses_keyword hAnd (by decide) (by decide)
    | or => exact senses_keyword hOr (by decide) (by decide)
    | xor => exact senses_keyword hXor (by decide) (by decide)
    -- IMPLIES and IFF are signs in this notation too
    | implies | iff =>
      rw [← hBlank]
      exact senses_lexeme rfl rfl
  | latex => exact absurd rfl hStyle

/-- The sign of negation is cut off whatever it stands before. -/
theorem senses_mark (hStyle : style ≠ .latex) (negated : Bool) :
    senses ((style.mark negated).toList ++ rest) =
      (Token.mark negated).map sense ++ senses rest := by
  have hNot : Unbroken ['N', 'O', 'T'] := by decide
  cases negated with
  | false => rfl
  | true =>
    cases style with
    | unicode => exact senses_lexeme rfl rfl
    | ascii => exact senses_keyword hNot (by decide) (by decide)
    | latex => exact absurd rfl hStyle

/-- **A printed formula is cut into the tokens it was printed from.** -/
theorem senses_renderUnder (hStyle : style ≠ .latex) (hWords : f.HasWords)
    (parent : Option Connective) (hRest : AtBoundary rest) :
    senses ((f.renderUnder style parent).toList ++ rest) =
      (f.tokensUnder parent).map sense ++ senses rest := by
  induction f generalizing parent rest with
  | literal name negated =>
    have hName : IsWord name := hWords name (by simp)
    rw [Formula.renderUnder, String.toList_append, List.append_assoc, senses_mark hStyle,
      senses_name hName hRest, Formula.tokensUnder, List.map_append, List.append_assoc]
    rfl
  | binary op a b negated iha ihb =>
    obtain ⟨hWordsA, hWordsB⟩ := Formula.hasWords_binary.mp hWords
    -- the blank before the connective bounds the left side, and what comes after the body
    -- bounds the right side
    have hBody : ∀ after, AtBoundary after →
        senses ((a.renderUnder style (some op) ++ " " ++ style.connective op ++ " " ++
            b.renderUnder style (some op)).toList ++ after) =
          (a.tokensUnder (some op) ++ sign (.connective op) :: b.tokensUnder (some op)).map sense ++
            senses after := by
      intro after hAfter
      have hText : (a.renderUnder style (some op) ++ " " ++ style.connective op ++ " " ++
            b.renderUnder style (some op)).toList ++ after =
          (a.renderUnder style (some op)).toList ++ ' ' :: ((style.connective op).toList ++
            ' ' :: ((b.renderUnder style (some op)).toList ++ after)) := by
        simp [String.toList_append]
      rw [hText, iha hWordsA (some op) atBoundary_blank, senses_blank rfl,
        senses_connective hStyle, ihb hWordsB (some op) hAfter, List.map_append, List.map_cons,
        List.append_assoc]
      rfl
    rw [Formula.renderUnder, Formula.tokensUnder]
    split
    next => exact hBody rest hRest
    next =>
      -- in parentheses it is the closing one that bounds the right side
      have hClosing := hBody (')' :: rest) atBoundary_closing
      rw [senses_closing] at hClosing
      have hText : ∀ mark body : String,
          (mark ++ "(" ++ body ++ ")").toList ++ rest =
            mark.toList ++ '(' :: (body.toList ++ ')' :: rest) := by
        intro mark body
        simp [String.toList_append]
      rw [hText, senses_mark hStyle, senses_opening, hClosing]
      simp [sense, sign]

end Cutting

/-! ## Deriving a printed formula -/

namespace Formula

variable {op op' : Connective} {parent : Option Connective} {negated : Bool}

/-- The number of operators that a printed side is passed with, its own connective included. -/
def passed (op : Connective) (f : Formula) : Nat :=
  1 + if op.isAssociative then f.chainLinks op else 0

/-- Without parentheses are the root, and what goes on an associative chain, if they are unmarked.
-/
theorem isBare_eq_true_iff : isBare parent op negated = true ↔
    negated = false ∧ (parent = none ∨ parent = some op ∧ op.isAssociative = true) := by
  simp [isBare]

/-- A side in parentheses continues no chain of its parent. -/
theorem continues_of_not_bare (hAssoc : op'.isAssociative = true)
    (h : isBare (some op') op negated ≠ true) : (binary op a b negated).continues op' = false := by
  rw [← Bool.not_eq_true, continues_eq_true]
  rintro ⟨left, right, hEq⟩
  cases hEq
  exact h (isBare_eq_true_iff.mpr ⟨rfl, .inr ⟨rfl, hAssoc⟩⟩)

/-- What does not go on a chain has no links of it. -/
theorem chainLinks_of_not_continues (h : f.continues op = false) : f.chainLinks op = 0 := by
  cases f with
  | literal => rfl
  | binary op' a b negated =>
    cases negated with
    | true => rfl
    | false =>
      rw [chainLinks, if_neg]
      rintro rfl
      simp [continues] at h

/-- The root of a binary formula that is read is the one that was printed. -/
theorem continues_regroup_binary :
    (binary op a b negated).regroup.continues op' = (binary op a b negated).continues op' := by
  obtain ⟨left, right, hJoin⟩ := exists_attach_eq_join op a.regroup b.regroup
  rw [regroup_eq_binary hJoin]
  rfl

/-- What stands in parentheses is passed with one operator and attached as one operand. -/
theorem not_bare_side (h : isBare (some op') op negated ≠ true) (tail : Formula) :
    passed op' (binary op a b negated) = 1 ∧
      attach op' (binary op a b negated).regroup tail =
        join op' (binary op a b negated).regroup tail := by
  unfold passed attach
  -- under an associative connective only another connective, or a mark, asks for parentheses
  by_cases hAssoc : op'.isAssociative = true
  · have hContinues : (binary op a b negated).continues op' = false :=
      continues_of_not_bare hAssoc h
    rw [if_pos hAssoc, if_pos hAssoc]
    refine ⟨?_, ?_⟩
    · rw [chainLinks_of_not_continues hContinues]
    · exact graft_of_not_continues (continues_regroup_binary.trans hContinues)
  · rw [if_neg hAssoc, if_neg hAssoc]
    exact ⟨rfl, rfl⟩

/-- What the printed tokens of a formula derive, alone and as the side of a connective. -/
structure Prints (f : Formula) : Prop where
  expression : ∀ parent level,
    Derives .expression level (f.tokensUnder parent) f.regroup (f.textLevel parent level)
  chain : ∀ op level rest g deepest, Derives .expression (level + f.passed op) rest g deepest →
    Derives .expression level (f.tokensUnder (some op) ++ sign (.connective op) :: rest)
      (attach op f.regroup g) (max (f.textLevel (some op) level) deepest)

/-- A mark stands before an atom. -/
theorem derives_mark (h : Derives .atom level tokens f deepest) (negated : Bool) :
    Derives .operand level (Token.mark negated ++ tokens) (f.negateIf negated) deepest := by
  cases negated with
  | true => exact .negated _ rfl h
  | false => exact .plain h

/-- A literal is one operand, and is read as it was. -/
theorem prints_literal (name : String) (negated : Bool) : (literal name negated).Prints := by
  have hOperand : ∀ parent level, Derives .operand level
      ((literal name negated).tokensUnder parent) (literal name negated) level := by
    intro parent level
    have hMark := derives_mark (.name name 0 : Derives .atom level _ _ _) negated
    have hEq : (var name).negateIf negated = literal name negated := by
      cases negated <;> rfl
    rw [hEq] at hMark
    exact hMark
  constructor
  · intro parent level
    exact .last (hOperand parent level)
  · intro op level rest g deepest hRest
    have hPassed : (literal name negated).passed op = 1 := by
      unfold passed
      split <;> rfl
    have hAttach : attach op (literal name negated) g = join op (literal name negated) g := by
      unfold attach
      split <;> rfl
    rw [hPassed] at hRest
    show Derives .expression level _ (attach op (literal name negated) g) _
    rw [hAttach]
    exact .chain op _ rfl (hOperand (some op) level) hRest

/-- A formula is read as its regrouping if its sides are. -/
theorem prints_binary (ha : a.Prints) (hb : b.Prints) : (binary op a b negated).Prints := by
  -- the body is the left side, followed by the right side as an expression
  have hBody : ∀ level, Derives .expression level
      (a.tokensUnder (some op) ++ sign (.connective op) :: b.tokensUnder (some op))
      (attach op a.regroup b.regroup)
      (max (a.textLevel (some op) level) (b.textLevel (some op) (level + a.passed op))) := by
    intro level
    exact ha.chain op level _ _ _ (hb.expression (some op) (level + a.passed op))
  have hOperand : ∀ parent level, isBare parent op negated ≠ true →
      Derives .operand level ((binary op a b negated).tokensUnder parent)
        (binary op a b negated).regroup ((binary op a b negated).textLevel parent level) := by
    intro parent level hBare
    rw [tokensUnder, regroup_binary, textLevel, if_neg hBare, if_neg hBare]
    exact derives_mark (.parentheses _ _ rfl rfl (hBody (level + 1))) negated
  constructor
  · intro parent level
    by_cases hBare : isBare parent op negated = true
    · obtain ⟨rfl, -⟩ := isBare_eq_true_iff.mp hBare
      rw [tokensUnder, regroup_binary, textLevel, if_pos hBare, if_pos hBare]
      exact hBody level
    · exact .last (hOperand parent level hBare)
  · intro op' level rest g deepest hRest
    by_cases hBare : isBare (some op') op negated = true
    · -- a chain goes on: the rest is attached to the right side first, and what this gives is
      -- attached to the left side
      obtain ⟨rfl, hParent | ⟨hParent, hAssoc⟩⟩ := isBare_eq_true_iff.mp hBare
      · cases hParent
      cases hParent
      have hPassed : (binary op a b false).passed op = a.passed op + b.passed op := by
        simp only [passed, chainLinks, if_pos hAssoc, if_true]
        omega
      rw [hPassed, ← Nat.add_assoc] at hRest
      have hChain := ha.chain op level _ _ _ (hb.chain op _ rest g deepest hRest)
      rw [tokensUnder, if_pos hBare, regroup_binary, textLevel, if_pos hBare, List.append_assoc,
        List.cons_append, Nat.max_assoc]
      show Derives .expression level _ (attach op (attach op a.regroup b.regroup) g) _
      rw [attach_attach hAssoc]
      exact hChain
    · -- a side in parentheses is one operand
      obtain ⟨hPassed, hAttach⟩ := @not_bare_side a b op op' negated hBare g
      rw [hPassed] at hRest
      rw [hAttach]
      exact .chain op' _ rfl (hOperand (some op') level hBare) hRest

/-- **The tokens of a printed formula derive the regrouped formula.** -/
theorem prints (f : Formula) : f.Prints := by
  induction f with
  | literal name negated => exact prints_literal name negated
  | binary op a b negated iha ihb => exact prints_binary iha ihb

end Formula

end Propositional
