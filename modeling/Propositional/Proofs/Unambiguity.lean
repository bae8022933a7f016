import Propositional.Proofs.Beginnings
import Propositional.Proofs.RoundTrip

/-!
# Propositional — a text says one formula

Tokens derive at most one formula (`Derives.formula_unique`), at whatever level and with no limit
on it. An operand ends at one place only (`Derives.operand_unique`), so what stands before the
first operator of an expression and what stands behind it are settled by the tokens.

Of the formula the text leaves one thing open. The printer writes a chain without its
parentheses, so a formula has the same text as the regrouped one
(`Formula.renderUnder_regroup`). Together with the tokens of a text deriving the regrouped
formula, this says exactly when two formulas are written alike: if they differ in the grouping of
chains and in nothing else.

Main result: `Formula.render_eq_render_iff`.
-/

namespace Propositional

variable {phrase : Phrase} {level level' deepest deepest' : Nat} {tokens : List Token}
  {f g a b a' b' tail : Formula} {op : Connective} {style : Notation}

/-! ## Tokens derive one formula -/

/-- **The grammar is unambiguous.** -/
theorem Derives.formula_unique (h : Derives phrase level tokens f deepest)
    (h' : Derives phrase level' tokens g deepest') : f = g := by
  induction h generalizing level' g deepest' with
  | name name offset =>
    rcases h'.atom_cases with ⟨token, hEqual, -, rfl⟩ | ⟨opening, inner, closing, hEqual, -⟩
    · rw [← (List.cons.inj hEqual).1]
    · simp at hEqual
  | parentheses opening closing hOpening hClosing hInner ih =>
    rcases h'.atom_cases with ⟨token, hEqual, -⟩ |
      ⟨opening', inner', closing', hEqual, -, -, hInner'⟩
    · simp at hEqual
    · -- the outer two tokens are the parentheses, so the same tokens stand inside
      obtain ⟨-, hEqual⟩ := List.cons.inj hEqual
      obtain ⟨rfl, -⟩ := List.append_inj' hEqual rfl
      exact ih hInner'
  | plain hAtom ih =>
    cases h' with
    | plain hAtom' => exact ih hAtom'
    | negated negation hNegation hAtom' =>
      -- an atom does not start with a mark
      obtain ⟨head, rest, hEqual, hHead⟩ := hAtom.exists_cons_of_atom
      rw [(List.cons.inj hEqual).1] at hNegation
      exact absurd hNegation hHead
  | negated negation hNegation hAtom ih =>
    cases h' with
    | plain hAtom' =>
      obtain ⟨head, rest, hEqual, hHead⟩ := hAtom'.exists_cons_of_atom
      rw [(List.cons.inj hEqual).1] at hNegation
      exact absurd hNegation hHead
    | negated negation' hNegation' hAtom' => rw [ih hAtom']
  | last hOperand ih =>
    cases h' with
    | last hOperand' => exact ih hOperand'
    | chain op operator hOperator hOperand' hRest' =>
      -- two operands at the same place are the same, and behind the first one nothing follows
      have hSame := hOperand.operand_unique hOperand' (List.append_nil _)
      simp at hSame
  | @chain level _ _ first rest _ _ op operator hOperator hOperand hRest ih ihRest =>
    generalize hWhole : first ++ operator :: rest = whole at h'
    cases h' with
    | last hOperand' =>
      have hSame := hOperand.operand_unique hOperand' (hWhole.trans (List.append_nil _).symm)
      simp [hSame] at hWhole
    | chain op' operator' hOperator' hOperand' hRest' =>
      obtain rfl := hOperand.operand_unique hOperand' hWhole
      rw [List.append_cancel_left_eq, List.cons.injEq] at hWhole
      obtain ⟨rfl, rfl⟩ := hWhole
      rw [hOperator, Token.Kind.connective.injEq] at hOperator'
      rw [ih hOperand', ihRest hRest', hOperator']

namespace Formula

/-! ## A text does not show how chains are grouped -/

/-- The text of two sides with their connective between them. -/
def linkText (style : Notation) (op : Connective) (a b : Formula) : String :=
  a.renderUnder style (some op) ++ " " ++ style.connective op ++ " " ++
    b.renderUnder style (some op)

/-- Nothing of the sides shows but this text. -/
theorem renderUnder_congr (h : linkText style op a b = linkText style op a' b') (negated : Bool)
    (parent : Option Connective) : (binary op a b negated).renderUnder style parent =
      (binary op a' b' negated).renderUnder style parent := by
  unfold linkText at h
  rw [renderUnder, renderUnder, h]

/-- Within its own chain a join has no parentheses. -/
theorem renderUnder_join (hAssoc : op.isAssociative = true) :
    (join op a b).renderUnder style (some op) = linkText style op a b := by
  rw [join, renderUnder, if_pos (isBare_eq_true_iff.mpr ⟨rfl, .inr ⟨rfl, hAssoc⟩⟩)]
  rfl

/-- What is grafted on a chain is written behind it. -/
theorem renderUnder_graft (hAssoc : op.isAssociative = true) (f tail : Formula) :
    (f.graft op tail).renderUnder style (some op) = linkText style op f tail := by
  induction f using chain_induction op with
  | operand f hOperand => rw [graft_of_not_continues hOperand, renderUnder_join hAssoc]
  | link a b ih =>
    -- the chain is written operand by operand, on whichever side of it more is joined
    have hLeft : (join op a b).renderUnder style (some op) = linkText style op a b :=
      renderUnder_join hAssoc
    rw [graft_join, renderUnder_join hAssoc, linkText, ih, linkText, linkText, hLeft, linkText]
    simp only [String.append_assoc]

/-- Attached to each other, two sides have the text that they have apart. -/
theorem linkText_of_attach (h : attach op a b = join op a' b') :
    linkText style op a' b' = linkText style op a b := by
  unfold attach at h
  split at h
  next hAssoc => rw [← renderUnder_join hAssoc, ← h, renderUnder_graft hAssoc]
  next =>
    cases h
    rfl

/-- A formula is written as if its chains were grouped to the right. -/
theorem renderUnder_regroup (style : Notation) (parent : Option Connective) (f : Formula) :
    f.regroup.renderUnder style parent = f.renderUnder style parent := by
  induction f generalizing parent with
  | literal name negated => rfl
  | binary op a b negated iha ihb =>
    obtain ⟨left, right, hJoin⟩ := exists_attach_eq_join op a.regroup b.regroup
    have hSides : linkText style op a.regroup b.regroup = linkText style op a b := by
      rw [linkText, linkText, iha, ihb]
    rw [regroup_eq_binary hJoin]
    exact renderUnder_congr ((linkText_of_attach hJoin).trans hSides) negated parent

/-! ## Formulas that are written alike -/

/-- **Formulas are written alike exactly if they differ in the grouping of chains only.** The names
are words and the notation can be read; how deep the text is does not matter. Formulas that are
written alike are equivalent. -/
theorem render_eq_render_iff (hf : f.HasWords) (hg : g.HasWords) (hStyle : style ≠ .latex) :
    (f.render style = g.render style ↔ f.regroup = g.regroup) ∧
      (f.render style = g.render style → f.Equivalent g) := by
  have hRegroup : f.render style = g.render style → f.regroup = g.regroup := by
    intro hText
    -- the one text derives both regrouped formulas
    have hDerives := derives_render hf hStyle
    rw [hText] at hDerives
    exact hDerives.formula_unique (derives_render hg hStyle)
  refine ⟨⟨hRegroup, ?_⟩, ?_⟩
  · intro hSame
    rw [render, render, ← f.renderUnder_regroup, ← g.renderUnder_regroup, hSame]
  · intro hText v
    rw [← f.eval_regroup, ← g.eval_regroup, hRegroup hText]

/-- A chain of conjunctions is written alike however it is grouped; implications are not. -/
theorem render_eq_render_iff_grouping :
    let inner := binary .implies (var "A") (var "B") true
    let f := join .and (join .and (var "A") (var "B")) inner
    let g := join .and (var "A") (join .and (var "B") inner)
    let f' := join .implies (join .implies (var "A") (var "B")) inner
    let g' := join .implies (var "A") (join .implies (var "B") inner)
    (f.HasWords ∧ g.HasWords ∧ f.render .ascii = g.render .ascii ∧ f.Equivalent g) ∧
      f'.HasWords ∧ g'.HasWords ∧ f'.render .unicode ≠ g'.render .unicode := by
  intro inner f g f' g'
  have hWords : ∀ h : Formula, (∀ name ∈ h.names, name = "A" ∨ name = "B") → h.HasWords := by
    intro h hNames name hName
    rcases hNames name hName with rfl | rfl
    · exact isWord_A
    · exact isWord_B
  have hf : f.HasWords := hWords f (by decide)
  have hg : g.HasWords := hWords g (by decide)
  have hf' : f'.HasWords := hWords f' (by decide)
  have hg' : g'.HasWords := hWords g' (by decide)
  have hAscii : Notation.ascii ≠ .latex := by decide
  have hUnicode : Notation.unicode ≠ .latex := by decide
  obtain ⟨hChain, hEquivalent⟩ := render_eq_render_iff hf hg hAscii
  obtain ⟨hImplications, -⟩ := render_eq_render_iff hf' hg' hUnicode
  have hText : f.render .ascii = g.render .ascii := hChain.mpr (by decide)
  -- implications are no chain, so their grouping shows in the text
  have hOther : f'.regroup ≠ g'.regroup := by decide
  exact ⟨⟨hf, hg, hText, hEquivalent hText⟩, hf', hg', fun hSame => hOther (hImplications.mp hSame)⟩

end Formula

end Propositional
