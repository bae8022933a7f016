import Propositional.Proofs.Printing
import Propositional.Proofs.Reading

/-!
# Propositional — beginnings of formulas

What tokens can follow a beginning of a formula, and what cannot. After some tokens an
expression is due at a level (`Awaits`) if they lead there by whole operands with their
operators, by negations and by opening parentheses.

* Such a beginning can be completed: whatever expression of that level is put there, closing
  the open parentheses makes it a derivation (`Awaits.exists_derives`). It goes beyond the
  limit only if the expression does.
* Nothing else can follow: every derivation that begins so has an expression of that level
  there, and behind it a closing parenthesis if one is open, else nothing
  (`Awaits.exists_expression`).

The second stands on unique reading. Two operands at the same place have the same tokens
(`Derives.operand_unique`), because the closing parenthesis of an opening one is its partner.

Within an expression that is due there are two more places, the one behind a mark and the one
behind an operand (`Due`). Which tokens begin a text that is read is answered there by the kind
of the next token alone: what is due can be completed to a text (`Due.isBeginning`), and no text
that is read has a token of another kind there (`Due.not_isBeginning`).
-/

namespace Propositional

open Token

variable {level level' deepest deepest' : Nat} {tokens tokens' rest rest' front : List Token}
variable {f g : Formula} {mark : Option Token} {opened : Option Nat} {token : Token}

/-! ## Unique reading -/

/-- Put between an opening and a closing parenthesis, balanced tokens make the two partners. -/
theorem Token.Balanced.matched {inner : List Token} {opening closing : Token}
    (h : Balanced inner) (hOpening : opening.kind = .opening) (hClosing : closing.kind = .closing)
    (rest : List Token) :
    Matched (opening :: inner ++ closing :: rest) 0 (0 + 1 + inner.length) := by
  obtain ⟨hOpen, hStands, hEnd, -⟩ :=
    standsAt_pair.mp (standsAt_zero (opening :: inner ++ closing :: rest))
  exact ⟨⟨opening, hOpen, hOpening⟩, ⟨closing, hEnd, hClosing⟩, inner, h, hStands, rfl⟩

/-- Balanced tokens that a closing parenthesis follows end where the first such one stands. -/
theorem Token.Balanced.unique {inner inner' : List Token} {closing closing' : Token}
    (h : Balanced inner) (h' : Balanced inner') (hClosing : closing.kind = .closing)
    (hClosing' : closing'.kind = .closing)
    (hEqual : inner ++ closing :: rest = inner' ++ closing' :: rest') : inner = inner' := by
  -- with an opening parenthesis in front, both closing ones are its partner
  have hOpening : (sign .opening).kind = .opening := rfl
  have hLeft := h.matched hOpening hClosing rest
  have hRight := h'.matched hOpening hClosing' rest'
  rw [List.cons_append, ← hEqual, ← List.cons_append] at hRight
  have hLength := hLeft.unique hRight
  exact List.append_inj_left hEqual (by omega)

/-- Every name among the tokens is a word, so that a text can have these tokens. -/
def Token.Spellable (tokens : List Token) : Prop :=
  ∀ token ∈ tokens, token.kind = .name → IsWord token.text

theorem Token.spellable_of_closing (h : ∀ token ∈ tokens, token.kind = .closing) :
    Spellable tokens := by
  intro token hMem hName
  rw [h token hMem] at hName
  cases hName

/-- The names of a text's own tokens are words. -/
theorem Token.spellable_ofText (text : String) : Spellable (ofText text).toList := by
  intro token hMem hName
  exact isWord_of_mem_ofText (Array.mem_toList_iff.mp hMem) hName

namespace Derives

/-- What an atom looks like. -/
theorem atom_cases (h : Derives .atom level tokens f deepest) :
    (∃ name, tokens = [name] ∧ name.kind = .name ∧ f = .var name.text) ∨
      ∃ opening inner closing, tokens = opening :: inner ++ [closing] ∧
        opening.kind = .opening ∧ closing.kind = .closing ∧
        Derives .expression (level + 1) inner f deepest := by
  cases h with
  | name name offset => exact .inl ⟨_, rfl, rfl, rfl⟩
  | parentheses opening closing hOpening hClosing hInner =>
    exact .inr ⟨opening, _, closing, rfl, hOpening, hClosing, hInner⟩

/-- An atom starts with a name or an opening parenthesis. -/
theorem exists_head (h : Derives .atom level tokens f deepest) :
    ∃ head tail, tokens = head :: tail ∧ (head.kind = .name ∨ head.kind = .opening) := by
  rcases h.atom_cases with ⟨name, rfl, hName, -⟩ |
    ⟨opening, inner, closing, rfl, hOpening, -, -⟩
  · exact ⟨name, [], rfl, .inl hName⟩
  · exact ⟨opening, inner ++ [closing], rfl, .inr hOpening⟩

/-- An operand is an atom that may have a mark. -/
theorem exists_mark (h : Derives .operand level tokens f deepest) :
    ∃ (mark : Option Token) (atom : List Token) (g : Formula),
      tokens = mark.toList ++ atom ∧ (∀ token ∈ mark, token.kind = .negation) ∧
      Derives .atom level atom g deepest := by
  cases h with
  | plain hAtom => exact ⟨none, tokens, f, rfl, nofun, hAtom⟩
  | negated negation hNegation hAtom =>
    refine ⟨some negation, _, _, rfl, ?_, hAtom⟩
    rintro _ ⟨⟩
    exact hNegation

/-- An atom with a mark, or without, is an operand of the same level. -/
theorem marked (h : Derives .atom level tokens f deepest)
    (hMark : ∀ token ∈ mark, token.kind = .negation) :
    ∃ g, Derives .operand level (mark.toList ++ tokens) g deepest := by
  cases mark with
  | none => exact ⟨f, .plain h⟩
  | some negation => exact ⟨f.negate, .negated negation (hMark negation rfl) h⟩

/-- An expression starts with an operand, behind which it ends or has an operator. -/
theorem exists_operand (h : Derives .expression level tokens f deepest) :
    ∃ first more g deepest', tokens = first ++ more ∧ Derives .operand level first g deepest' ∧
      deepest' ≤ deepest ∧ (more = [] ∨ ∃ operator op rest, more = operator :: rest ∧
        operator.kind = .connective op ∧ ∃ k deepest'', deepest'' ≤ deepest ∧
          Derives .expression (level + 1) rest k deepest'') := by
  -- the deepest level is the larger of the two sides', so each of them stays below it
  cases h with
  | last hOperand =>
    exact ⟨tokens, [], f, deepest, by simp, hOperand, Nat.le_refl _, .inl rfl⟩
  | chain op operator hOperator hOperand hRest =>
    exact ⟨_, _, _, _, rfl, hOperand, Nat.le_max_left _ _, .inr ⟨operator, op, _, rfl, hOperator,
      _, _, Nat.le_max_right _ _, hRest⟩⟩

/-- Behind the same mark stands the same token, if it is no mark. -/
theorem mark_unique {mark' : Option Token} (hMark : ∀ token ∈ mark, token.kind = .negation)
    (hMark' : ∀ token ∈ mark', token.kind = .negation) {head head' : Token}
    (hHead : head.kind ≠ .negation) (hHead' : head'.kind ≠ .negation)
    (hEqual : mark.toList ++ head :: rest = mark'.toList ++ head' :: rest') :
    mark = mark' ∧ head = head' ∧ rest = rest' := by
  cases mark <;> cases mark' <;> simp_all

/-- Two atoms at the same place have the same tokens: a name is one token, and a parenthesis ends at
its partner. -/
theorem atom_unique (h : Derives .atom level tokens f deepest)
    (h' : Derives .atom level' tokens' g deepest') (hEqual : tokens ++ rest = tokens' ++ rest') :
    tokens = tokens' := by
  rcases h.atom_cases with ⟨name, rfl, hName, -⟩ |
    ⟨opening, inner, closing, rfl, hOpens, hCloses, hInner⟩
  · rcases h'.atom_cases with ⟨name', rfl, -⟩ | ⟨opening', inner', closing', rfl, hOpens', -, -⟩
    · rw [List.singleton_append, List.singleton_append, List.cons.injEq] at hEqual
      rw [hEqual.1]
    · -- a name opens nothing
      have hHead : name = opening' := (List.cons.inj hEqual).1
      rw [hHead, hOpens'] at hName
      cases hName
  · rcases h'.atom_cases with ⟨name', rfl, hName', -⟩ |
      ⟨opening', inner', closing', rfl, -, hCloses', hInner'⟩
    · -- nor does an opening parenthesis name anything
      have hHead : opening = name' := (List.cons.inj hEqual).1
      rw [← hHead, hOpens] at hName'
      cases hName'
    · simp only [List.append_assoc, List.cons_append, List.nil_append, List.cons.injEq] at hEqual
      obtain ⟨rfl, hEqual⟩ := hEqual
      -- what is inside is balanced, so it ends at the same closing parenthesis
      have hSame := hInner.balanced.unique hInner'.balanced hCloses hCloses' hEqual
      subst hSame
      rw [List.append_cancel_left_eq, List.cons.injEq] at hEqual
      rw [hEqual.1]

/-- **Unique reading**: two operands at the same place have the same tokens. -/
theorem operand_unique (h : Derives .operand level tokens f deepest)
    (h' : Derives .operand level' tokens' g deepest') (hEqual : tokens ++ rest = tokens' ++ rest') :
    tokens = tokens' := by
  obtain ⟨mark, atom, _, rfl, hMark, hAtom⟩ := h.exists_mark
  obtain ⟨mark', atom', _, rfl, hMark', hAtom'⟩ := h'.exists_mark
  obtain ⟨head, tail, rfl, hHead⟩ := hAtom.exists_cons_of_atom
  obtain ⟨head', tail', rfl, hHead'⟩ := hAtom'.exists_cons_of_atom
  simp only [List.append_assoc, List.cons_append] at hEqual
  -- an atom starts with no mark, so the marks agree and the atoms start together
  obtain ⟨rfl, rfl, hTail⟩ := mark_unique hMark hMark' hHead hHead' hEqual
  have hSame : head :: tail = head :: tail' :=
    hAtom.atom_unique hAtom' (congrArg (head :: ·) hTail)
  rw [hSame]

/-- If an expression and what stands behind it begin with an operand, the expression ends with the
operand, or it goes on with an operator. -/
theorem ends_or_goes_on {first back : List Token} (h : Derives .expression level tokens f deepest)
    (hFirst : Derives .operand level' first g deepest') (hEqual : first ++ rest = tokens ++ back) :
    rest = back ∨ ∃ operator op more, rest = operator :: (more ++ back) ∧
      operator.kind = .connective op ∧ ∃ k deepest'', deepest'' ≤ deepest ∧
        Derives .expression (level + 1) more k deepest'' := by
  obtain ⟨first', behind, k, _, rfl, hFirst', -, hBehind⟩ := h.exists_operand
  rw [List.append_assoc] at hEqual
  -- by unique reading it is the operand that the expression starts with
  obtain rfl : first = first' := hFirst.operand_unique hFirst' hEqual
  rw [List.append_cancel_left_eq] at hEqual
  rcases hBehind with rfl | ⟨operator, op, more, rfl, hOperator, hMore⟩
  · exact .inl hEqual
  · exact .inr ⟨operator, op, more, hEqual, hOperator, hMore⟩

end Derives

/-! ## Where an expression is due -/

/-- `Awaits level opened front` says that the tokens lead to where an expression is due at a level,
with no operand beyond the limit before it; the innermost open parenthesis, if one is open, stands
at the place `opened`. -/
inductive Awaits : Nat → Option Nat → List Token → Prop
  | start : Awaits 0 none []
  | opening {level : Nat} {opened : Option Nat} {front : List Token} (mark : Option Token)
    (paren : Token) (hMark : ∀ token ∈ mark, token.kind = .negation)
    (hParen : paren.kind = .opening) (h : Awaits level opened front) :
    Awaits (level + 1) (some (front ++ mark.toList).length) (front ++ mark.toList ++ [paren])
  | operator {level deepest : Nat} {opened : Option Nat} {front tokens : List Token} {f : Formula}
    (op : Connective) (operator : Token) (hOperator : operator.kind = .connective op)
    (hOperand : Derives .operand level tokens f deepest) (hDeepest : deepest ≤ maxLevel)
    (h : Awaits level opened front) :
    Awaits (level + 1) opened (front ++ tokens ++ [operator])

namespace Awaits

/-- Whatever is due can be put there, and then closing parentheses complete it. -/
theorem exists_derives (h : Awaits level opened front)
    (hTokens : Derives .expression level tokens f deepest) :
    ∃ rest g deepest', Derives .expression 0 (front ++ tokens ++ rest) g deepest' ∧
      (∀ token ∈ rest, token.kind = .closing) ∧ (deepest ≤ maxLevel → deepest' ≤ maxLevel) := by
  induction h generalizing tokens f deepest with
  | start => exact ⟨[], f, deepest, by simpa using hTokens, by simp, id⟩
  | @opening level opened front mark paren hMark hParen _ ih =>
    -- in parentheses the expression is an atom, and with the mark an operand
    have hAtom : Derives .atom level (paren :: tokens ++ [sign .closing]) f deepest :=
      .parentheses paren (sign .closing) hParen rfl hTokens
    obtain ⟨g, hOperand⟩ := hAtom.marked hMark
    obtain ⟨rest, k, deepest', hWhole, hClosing, hDeepest⟩ := ih (.last hOperand)
    refine ⟨sign .closing :: rest, k, deepest', by simpa using hWhole, ?_, hDeepest⟩
    exact List.forall_mem_cons.mpr ⟨rfl, hClosing⟩
  | @operator level deepest₁ opened front tokens₁ f₁ op operator hOperator hOperand hShallow _ ih =>
    obtain ⟨rest, k, deepest', hWhole, hClosing, hDeepest⟩ :=
      ih (.chain op operator hOperator hOperand hTokens)
    refine ⟨rest, k, deepest', by simpa using hWhole, hClosing, ?_⟩
    intro hTokensDeepest
    exact hDeepest (Nat.max_le.mpr ⟨hShallow, hTokensDeepest⟩)

/-- What may stand behind an expression: a closing parenthesis if one is open, else nothing. -/
def Closes (opened : Option Nat) (back : List Token) : Prop :=
  match opened with
  | none => back = []
  | some _ => ∃ closing rest, back = closing :: rest ∧ closing.kind = .closing

/-- No operator closes an expression that is due. -/
theorem not_closes_operator {operator : Token} {op : Connective}
    (hOperator : operator.kind = .connective op) : ¬ Closes opened (operator :: rest) := by
  intro hCloses
  cases opened with
  | none => cases hCloses
  | some start =>
    obtain ⟨closing, rest', hEqual, hClosing⟩ := hCloses
    obtain ⟨rfl, -⟩ := List.cons.inj hEqual
    rw [hOperator] at hClosing
    cases hClosing

/-- **Nothing else can follow.** A derivation that begins with the tokens has an expression of the
level behind them. -/
theorem exists_expression (h : Awaits level opened front)
    (hWhole : Derives .expression 0 (front ++ rest) f deepest) :
    ∃ tokens back g deepest', rest = tokens ++ back ∧ Derives .expression level tokens g deepest' ∧
      deepest' ≤ deepest ∧ Closes opened back := by
  induction h generalizing rest with
  | start => exact ⟨rest, [], f, deepest, by simp, hWhole, Nat.le_refl _, rfl⟩
  | @opening level opened front mark paren hMark hParen _ ih =>
    rw [List.append_assoc, List.append_assoc] at hWhole
    obtain ⟨tokens, back, g, deepest₁, hRest, hTokens, hDeepest, -⟩ := ih hWhole
    obtain ⟨first, more, k, deepest₂, rfl, hFirst, hDeepest₂, -⟩ := hTokens.exists_operand
    obtain ⟨mark', atom, k', rfl, hMark', hAtom⟩ := hFirst.exists_mark
    obtain ⟨head, tail, rfl, hHead⟩ := hAtom.exists_cons_of_atom
    have hNoMark : paren.kind ≠ .negation := by rw [hParen]; nofun
    simp only [List.append_assoc, List.cons_append, List.nil_append] at hRest
    obtain ⟨rfl, rfl, hTail⟩ := Derives.mark_unique hMark hMark' hNoMark hHead hRest
    -- so the operand is the parenthesis that was opened, and its inside is what is due
    rcases hAtom.atom_cases with ⟨name, hEqual, hName, -⟩ |
      ⟨opens, inner, closing, hEqual, -, hCloses, hInner⟩
    · rw [(List.cons.inj hEqual).1, hName] at hParen
      cases hParen
    · obtain ⟨-, rfl⟩ := List.cons.inj hEqual
      refine ⟨inner, closing :: (more ++ back), k', deepest₂, ?_, hInner,
        Nat.le_trans hDeepest₂ hDeepest, closing, _, rfl, hCloses⟩
      simpa using hTail
  | @operator level deepest₁ opened front tokens₁ f₁ op operator hOperator hOperand hShallow _ ih =>
    rw [List.append_assoc, List.append_assoc] at hWhole
    obtain ⟨tokens, back, g, deepest₂, hRest, hTokens, hDeepest, hCloses⟩ := ih hWhole
    -- the expression that is there begins with the operand before the operator
    rcases hTokens.ends_or_goes_on hOperand hRest with
      rfl | ⟨operator', op', more, hBehind, -, k, deepest₃, hDeepest₃, hMore⟩
    · exact absurd hCloses (not_closes_operator hOperator)
    · obtain ⟨-, rfl⟩ := List.cons.inj hBehind
      exact ⟨more, back, k, deepest₃, rfl, hMore, Nat.le_trans hDeepest₃ hDeepest, hCloses⟩

/-- Behind the innermost open parenthesis everything is balanced. -/
theorem exists_opening {start : Nat} (h : Awaits level (some start) front) :
    ∃ outer paren inner, front = outer ++ paren :: inner ∧ start = outer.length ∧
      paren.kind = .opening ∧ Balanced inner := by
  generalize hOpened : some start = opened at h
  induction h with
  | start => cases hOpened
  | @opening level opened front mark paren hMark hParen =>
    cases hOpened
    exact ⟨front ++ mark.toList, paren, [], rfl, rfl, hParen, .nil⟩
  | @operator level deepest opened front tokens f op operator hOperator hOperand _ _ ih =>
    obtain ⟨outer, paren, inner, rfl, hStart, hParen, hInner⟩ := ih hOpened
    refine ⟨outer, paren, inner ++ (tokens ++ [operator]), by simp, hStart, hParen, ?_⟩
    -- an operand is balanced and an operator opens nothing, so no parenthesis is left open
    have hOperator' : Balanced [operator] :=
      .other operator (by rw [hOperator]; nofun) (by rw [hOperator]; nofun) .nil
    exact hInner.append (hOperand.balanced.append hOperator')

end Awaits

/-! ## What is due -/

/-- What an operand can go on with behind its mark, if it has one. -/
def goesOnOperand (mark : Option Token) : Kind → Prop
  | .name | .opening => True
  | .negation => mark = none
  | .connective _ | .closing => False

/-- What can stand behind an operand. -/
def goesOnChain (opened : Option Nat) : Kind → Prop
  | .connective _ => True
  | .closing => opened ≠ none
  | .name | .negation | .opening => False

/-- `Due front fits` says that the tokens lead to where an operand is due, perhaps behind its mark,
or to where one has ended, none of them beyond the limit; and what kinds of tokens fit there. -/
inductive Due : List Token → (Kind → Prop) → Prop
  | operand {level : Nat} {opened : Option Nat} {front : List Token} (mark : Option Token)
    (hMark : ∀ token ∈ mark, token.kind = .negation) (hLevel : level ≤ maxLevel)
    (h : Awaits level opened front) : Due (front ++ mark.toList) (goesOnOperand mark)
  | operator {level deepest : Nat} {opened : Option Nat} {front tokens : List Token} {f : Formula}
    (hOperand : Derives .operand level tokens f deepest) (hDeepest : deepest ≤ maxLevel)
    (h : Awaits level opened front) : Due (front ++ tokens) (goesOnChain opened)

namespace Due

variable {fits : Kind → Prop}

/-- Nothing else can come next. -/
theorem fits_of_derives (h : Due front fits)
    (hWhole : Derives .expression 0 (front ++ token :: rest) f deepest) : fits token.kind := by
  cases h with
  | @operand level opened front mark hMark hLevel h =>
    rw [List.append_assoc] at hWhole
    obtain ⟨tokens, back, g, deepest', hRest, hTokens, -, -⟩ := h.exists_expression hWhole
    obtain ⟨first, more, k, _, rfl, hFirst, -, -⟩ := hTokens.exists_operand
    obtain ⟨mark', atom, k', rfl, hMark', hAtom⟩ := hFirst.exists_mark
    obtain ⟨head, tail, rfl, hHead⟩ := hAtom.exists_head
    rw [List.append_assoc, List.append_assoc, List.cons_append] at hRest
    -- the token is the head of the atom, or a mark if there is none before it
    have hNext : token = head ∨ mark = none ∧ token.kind = .negation := by
      cases mark <;> cases mark' <;> simp_all
    rcases hNext with rfl | ⟨rfl, hNegation⟩
    · rcases hHead with hName | hOpening
      · rw [hName]
        trivial
      · rw [hOpening]
        trivial
    · rw [hNegation]
      rfl
  | @operator level deepest₁ opened front tokens f₁ hOperand hDeepest h =>
    rw [List.append_assoc] at hWhole
    obtain ⟨tokens', back, g, deepest', hRest, hTokens, -, hCloses⟩ := h.exists_expression hWhole
    rcases hTokens.ends_or_goes_on hOperand hRest with rfl | ⟨operator, op, more, hBehind, hOp, -⟩
    · -- the expression ends, so only a closing parenthesis can be behind it
      cases opened with
      | none => cases hCloses
      | some start =>
        obtain ⟨closing, _, hEqual, hClosing⟩ := hCloses
        rw [(List.cons.inj hEqual).1, hClosing]
        exact Option.some_ne_none start
    · rw [(List.cons.inj hBehind).1, hOp]
      trivial

/-- A variable, where an operand is due, and closing parentheses complete a formula. -/
theorem exists_derives (h : Due front fits) :
    ∃ rest g deepest, Derives .expression 0 (front ++ rest) g deepest ∧ deepest ≤ maxLevel ∧
      Spellable rest := by
  cases h with
  | @operand level opened front mark hMark hLevel h =>
    -- any name will do for the operand that is missing
    have hAtom : Derives .atom level [⟨.name, "A", 0⟩] (.var "A") level := .name "A" 0
    obtain ⟨g, hOperand⟩ := hAtom.marked hMark
    obtain ⟨rest, k, deepest, hWhole, hClosing, hDeepest⟩ := h.exists_derives (.last hOperand)
    refine ⟨⟨.name, "A", 0⟩ :: rest, k, deepest, by simpa using hWhole, hDeepest hLevel, ?_⟩
    exact List.forall_mem_cons.mpr ⟨fun _ => Formula.isWord_A, spellable_of_closing hClosing⟩
  | operator hOperand hDeepest h =>
    obtain ⟨rest, k, deepest, hWhole, hClosing, hWithin⟩ := h.exists_derives (.last hOperand)
    exact ⟨rest, k, deepest, hWhole, hWithin hDeepest, spellable_of_closing hClosing⟩

end Due

/-! ## Texts -/

namespace Token

/-- Before a blank every token can be spelled. -/
theorem exists_senses_cons (hWord : token.kind = .name → IsWord token.text) (back : List Char) :
    ∃ text, senses (text ++ ' ' :: back) = token.sense :: senses back := by
  obtain ⟨kind, name, offset⟩ := token
  have hUnicode : Notation.unicode ≠ .latex := nofun
  have hBlank : senses (' ' :: back) = senses back := senses_blank rfl
  -- a blank behind the token keeps what follows from being read with it
  rw [← hBlank]
  cases kind with
  | name => exact ⟨name.toList, senses_name (hWord rfl) atBoundary_blank⟩
  | negation => exact ⟨_, senses_mark hUnicode true⟩
  | connective op =>
    rw [hBlank]
    exact ⟨_, senses_connective hUnicode op⟩
  | opening => exact ⟨['('], senses_opening⟩
  | closing => exact ⟨[')'], senses_closing⟩

/-- Some text has these tokens. -/
theorem exists_senses (h : Spellable tokens) : ∃ text, senses text = tokens.map sense := by
  induction tokens with
  | nil => exact ⟨[], senses_nil⟩
  | cons token tokens ih =>
    obtain ⟨hWord, hRest⟩ := List.forall_mem_cons.mp h
    obtain ⟨back, hBack⟩ := ih hRest
    obtain ⟨text, hText⟩ := exists_senses_cons hWord back
    exact ⟨text ++ ' ' :: back, by rw [hText, hBack, List.map_cons]⟩

end Token

/-- A text that is read begins with these tokens. How they are spelled and where they stand in the
text does not matter. -/
def IsBeginning (front : List Token) : Prop :=
  ∃ text f, Formula.parse text = .ok f ∧ front.map sense <+: senses text.toList

/-- Without the limit, what the grammar derives begins with these tokens. -/
def IsUnlimitedBeginning (front : List Token) : Prop :=
  ∃ rest f deepest, Derives .expression 0 (front ++ rest) f deepest

/-- Tokens that some text begins with begin a derivation within the limit. -/
theorem IsBeginning.exists_derives (h : IsBeginning front) :
    ∃ rest f deepest, Derives .expression 0 (front ++ rest) f deepest ∧ deepest ≤ maxLevel := by
  obtain ⟨text, f, hParse, back, hSenses⟩ := h
  obtain ⟨deepest, hDerives, hDeepest⟩ := Formula.exists_derives_of_parse_eq_ok hParse
  -- the text's own tokens may be spelled differently in front
  obtain ⟨front', rest, hTokens, hFront, -⟩ := List.map_eq_append_iff.mp hSenses.symm
  refine ⟨rest, f, deepest, hDerives.congr ?_, hDeepest⟩
  have hText : (Token.ofText text).toList = front' ++ rest := hTokens
  rw [hText, List.map_append, List.map_append, hFront]

/-- Tokens that a derivation within the limit begins with are a beginning of a text that is read. -/
theorem isBeginning_of_derives (h : Derives .expression 0 (front ++ rest) f deepest)
    (hDeepest : deepest ≤ maxLevel) (hSpellable : Spellable (front ++ rest)) :
    IsBeginning front := by
  obtain ⟨text, hText⟩ := exists_senses hSpellable
  rw [← String.toList_ofList (l := text)] at hText
  -- only what the tokens stand for decides, so any text with these tokens is read
  refine ⟨String.ofList text, f, ?_, rest.map sense, ?_⟩
  · exact (Formula.answers_of_derives (h.congr hText)).1 hDeepest
  · rw [hText, List.map_append]

namespace Due

variable {fits : Kind → Prop}

/-- Tokens that lead to where something is due can be continued to a text that is read, -/
theorem isBeginning (h : Due front fits) (hSpellable : Spellable front) : IsBeginning front := by
  obtain ⟨rest, f, deepest, hDerives, hDeepest, hRest⟩ := h.exists_derives
  exact isBeginning_of_derives hDerives hDeepest (List.forall_mem_append.mpr ⟨hSpellable, hRest⟩)

/-- but not by a token that does not fit. -/
theorem not_isBeginning (h : Due front fits) (hFits : ¬ fits token.kind) :
    ¬ IsBeginning (front ++ [token]) := by
  intro hBeginning
  obtain ⟨rest, f, deepest, hDerives, -⟩ := hBeginning.exists_derives
  rw [List.append_assoc, List.singleton_append] at hDerives
  exact hFits (h.fits_of_derives hDerives)

end Due

namespace Awaits

/-- Beyond the limit the grammar still goes on, -/
theorem isUnlimitedBeginning (h : Awaits level opened front) : IsUnlimitedBeginning front := by
  obtain ⟨rest, f, deepest, hDerives, -⟩ := h.exists_derives (.last (.plain (.name "A" 0)))
  rw [List.append_assoc] at hDerives
  exact ⟨_, f, deepest, hDerives⟩

/-- but no text that is read begins so: whatever is put there has an operand too deep. -/
theorem not_isBeginning (h : Awaits level opened front) (hLevel : maxLevel < level) :
    ¬ IsBeginning front := by
  intro hBeginning
  obtain ⟨rest, f, deepest, hDerives, hDeepest⟩ := hBeginning.exists_derives
  obtain ⟨tokens, back, g, deepest', -, hTokens, hWithin, -⟩ := h.exists_expression hDerives
  have hDeep := hTokens.le_deepest
  omega

end Awaits

end Propositional
