import Propositional.Proofs.Cutting
import Propositional.Proofs.Matching
import Propositional.Text.Grammar
import Propositional.Text.Parser

/-!
# Propositional — reading is deriving

The reader does not follow the grammar step by step: it reads ranges of places,
finds the end of a parenthesis by its partner and counts down the levels that are
left. This module proves that it nevertheless accepts exactly what the grammar
derives within the limit, and refuses as too deep exactly what the grammar derives
beyond it.

* Soundness (`Reader.expr_sound`) is an induction on the levels that are left. The
  invariant is `Reader.IsRange`: no pair that opens in the range closes outside it.
  So a parenthesis never leads out of its range, and an expression that is read
  fills it.
* Completeness (`Reader.completes_of_derives`) is an induction on the derivation.
  A phrase is balanced (`Derives.balanced`), so the partner of a parenthesis stands
  where the derivation has it, and the only other outcome is that the levels run out.

Main result: `Formula.parse_eq_ok_iff_derives`. Chains of implications, of which the
deepest level is known (`Formula.derives_implicationText`), show that the limit is sharp.
-/

namespace Propositional

open Token ParseError

variable {level deepest : Nat} {phrase : Phrase} {tokens : List Token} {f g : Formula}

/-! ## Phrases -/

/-- The parentheses of a phrase are matched within it. -/
theorem Derives.balanced (h : Derives phrase level tokens f deepest) : Balanced tokens := by
  induction h with
  | name name offset => exact .other _ nofun nofun .nil
  -- only this rule has parentheses, and it brings both
  | parentheses opening closing hOpening hClosing _ ih =>
    exact .pair opening closing hOpening hClosing ih .nil
  | plain _ ih => exact ih
  | negated negation hNegation _ ih =>
    exact .other negation (by rw [hNegation]; nofun) (by rw [hNegation]; nofun) ih
  | last _ ih => exact ih
  | chain op operator hOperator _ _ ih ihRest =>
    exact ih.append (.other operator (by rw [hOperator]; nofun) (by rw [hOperator]; nofun) ihRest)

/-- An atom does not start with a negation. -/
theorem Derives.exists_cons_of_atom (h : Derives .atom level tokens f deepest) :
    ∃ token rest, tokens = token :: rest ∧ token.kind ≠ .negation := by
  cases h with
  | name name offset => exact ⟨_, _, rfl, nofun⟩
  | parentheses opening closing hOpening =>
    exact ⟨opening, _, rfl, by rw [hOpening]; nofun⟩

/-- Tokens with the same senses derive the same. -/
theorem Derives.congr (h : Derives phrase level tokens f deepest) {tokens' : List Token}
    (hSenses : tokens'.map sense = tokens.map sense) : Derives phrase level tokens' f deepest := by
  -- each rule looks at kinds and at the text of a name, which are what a sense is
  induction h generalizing tokens' with
  | name name offset =>
    obtain ⟨t, rest, rfl, hSense, hRest⟩ := List.map_eq_cons_iff.mp hSenses
    rw [List.map_eq_nil_iff.mp hRest]
    have hKind : t.kind = .name := kind_eq_of_sense_eq hSense
    have hText : t.text = name := text_eq_of_sense_eq hSense hKind
    obtain ⟨kind, text, offset'⟩ := t
    cases hKind
    cases hText
    exact .name _ offset'
  | parentheses opening closing hOpening hClosing _ ih =>
    rw [List.map_append] at hSenses
    obtain ⟨front, back, rfl, hFront, hBack⟩ := List.map_eq_append_iff.mp hSenses
    obtain ⟨opening', inner, rfl, hSense, hInner⟩ := List.map_eq_cons_iff.mp hFront
    obtain ⟨closing', rest, rfl, hSense', hRest⟩ := List.map_eq_cons_iff.mp hBack
    rw [List.map_eq_nil_iff.mp hRest]
    exact .parentheses opening' closing' ((kind_eq_of_sense_eq hSense).trans hOpening)
      ((kind_eq_of_sense_eq hSense').trans hClosing) (ih hInner)
  | plain _ ih => exact .plain (ih hSenses)
  | negated negation hNegation _ ih =>
    obtain ⟨negation', rest, rfl, hSense, hRest⟩ := List.map_eq_cons_iff.mp hSenses
    exact .negated negation' ((kind_eq_of_sense_eq hSense).trans hNegation) (ih hRest)
  | last _ ih => exact .last (ih hSenses)
  | chain op operator hOperator _ _ ih ihRest =>
    rw [List.map_append] at hSenses
    obtain ⟨front, back, rfl, hFront, hBack⟩ := List.map_eq_append_iff.mp hSenses
    obtain ⟨operator', rest, rfl, hSense, hRest⟩ := List.map_eq_cons_iff.mp hBack
    exact .chain op operator' ((kind_eq_of_sense_eq hSense).trans hOperator) (ih hFront)
      (ihRest hRest)

/-- A computation that answers has answered at its first step. -/
theorem exists_of_bind_eq_ok {ε α β : Type} {x : Except ε α} {next : α → Except ε β} {b : β}
    (h : x >>= next = .ok b) : ∃ a, x = .ok a ∧ next a = .ok b := by
  cases x with
  | error e => cases h
  | ok a => exact ⟨a, rfl, h⟩

namespace Reader

variable {r : Reader} {stop place next levels : Nat}

/-! ## Ranges -/

/-- The reader has the partners of its own tokens. -/
def WellFormed (r : Reader) : Prop := r.partners = Token.partners r.tokens

theorem wellFormed_ofText (text : String) : (ofText text).WellFormed := rfl

/-- The places from one up to before another, such that every pair that opens there closes there. -/
structure IsRange (r : Reader) (place stop : Nat) : Prop where
  le : place ≤ stop
  le_size : stop ≤ r.tokens.size
  close_lt : ∀ start close, place ≤ start → start < stop →
    Matched r.tokens.toList start close → close < stop

theorem isRange_all (r : Reader) : r.IsRange 0 r.tokens.size := by
  refine ⟨Nat.zero_le _, Nat.le_refl _, ?_⟩
  intro start close _ _ hMatched
  obtain ⟨token, hToken, -⟩ := hMatched.closing
  simpa using (List.getElem?_eq_some_iff.mp hToken).1

/-- The end of a range is a range. -/
theorem IsRange.rest (h : r.IsRange place stop) (hPlace : place ≤ next) (hStop : next ≤ stop) :
    r.IsRange next stop := by
  refine ⟨hStop, h.le_size, ?_⟩
  intro start close hStart
  exact h.close_lt start close (Nat.le_trans hPlace hStart)

/-- What stands between a pair is a range. -/
theorem isRange_of_matched {start close : Nat} (h : Matched r.tokens.toList start close) :
    r.IsRange (start + 1) close := by
  refine ⟨h.lt, ?_, ?_⟩
  · obtain ⟨token, hToken, -⟩ := h.closing
    have hClose := (List.getElem?_eq_some_iff.mp hToken).1
    rw [Array.length_toList] at hClose
    exact Nat.le_of_lt hClose
  · intro start' close' hAfter hBefore h'
    exact h.close_lt h' hAfter hBefore

/-- What is seen is the token at the place, within the range. -/
theorem peek_eq_some_iff {token : Token} :
    r.peek stop place = some token ↔ place < stop ∧ r.tokens.toList[place]? = some token := by
  unfold peek
  rw [Array.getElem?_toList]
  split
  next h => simp [h]
  next h => simp [h]

/-- In a range there is nothing to look at only where it ends. -/
theorem IsRange.eq_stop_of_peek_eq_none (h : r.IsRange place stop)
    (hPeek : r.peek stop place = none) : place = stop := by
  unfold peek at hPeek
  split at hPeek
  -- a range lies within the tokens, so there is a token before its end
  next hLt =>
    have hSize := h.le_size
    rw [Array.getElem?_eq_none_iff] at hPeek
    omega
  next hLt =>
    have hLe := h.le
    omega

/-! ## Soundness -/

/-- The places from one up to before another hold a phrase that spells the formula, with no operand
beyond the limit. -/
def Spells (r : Reader) (phrase : Phrase) (level place stop : Nat) (f : Formula) : Prop :=
  ∃ tokens deepest, StandsAt r.tokens.toList place tokens ∧ stop = place + tokens.length ∧
    deepest ≤ maxLevel ∧ Derives phrase level tokens f deepest

/-- What the calls for deeper expressions are known to do: an answer fills its range. -/
def ReadsRanges (r : Reader) (level : Nat)
    (expr : Nat → Nat → Except Cause (Formula × Nat)) : Prop :=
  ∀ stop place f next, r.IsRange place stop → expr stop place = .ok (f, next) →
    r.Spells .expression level place stop f ∧ next = stop

variable {expr : Nat → Nat → Except Cause (Formula × Nat)}

/-- An answer of `operand` is an atom of the grammar, spelled from the place to where it ends. -/
theorem operand_sound (hWell : r.WellFormed) (hExpr : r.ReadsRanges (level + 1) expr)
    (hLevel : level ≤ maxLevel) (hRange : r.IsRange place stop)
    (h : r.operand expr stop place = .ok (f, next)) :
    place ≤ next ∧ next ≤ stop ∧ r.Spells .atom level place next f := by
  unfold operand at h
  split at h
  next => cases h
  next name offset hPeek =>
    cases h
    obtain ⟨hLt, hToken⟩ := peek_eq_some_iff.mp hPeek
    exact ⟨Nat.le_succ _, hLt, _, level, standsAt_cons.mpr ⟨hToken, standsAt_nil⟩, rfl, hLevel,
      .name name offset⟩
  next text offset hPeek =>
    obtain ⟨hLt, hToken⟩ := peek_eq_some_iff.mp hPeek
    split at h
    next close hPartner =>
      obtain ⟨⟨inner, next'⟩, hInner, hAnswer⟩ := exists_of_bind_eq_ok h
      cases hAnswer
      -- the pair closes within the range, and what was read fills the places between
      rw [hWell, getElem?_partners_eq_some_iff] at hPartner
      have hClose : close < stop := hRange.close_lt place close (Nat.le_refl _) hLt hPartner
      obtain ⟨⟨tokens, deepest, hStands, hLength, hDeepest, hDerives⟩, -⟩ :=
        hExpr close (place + 1) _ next' (isRange_of_matched hPartner) hInner
      obtain ⟨closing, hClosing, hCloses⟩ := hPartner.closing
      have hPair :
          StandsAt r.tokens.toList place (⟨.opening, text, offset⟩ :: tokens ++ [closing]) :=
        standsAt_pair.mpr ⟨hToken, hStands, hLength ▸ hClosing, standsAt_nil⟩
      refine ⟨?_, hClose, _, deepest, hPair, ?_, hDeepest,
        .parentheses _ closing rfl hCloses hDerives⟩
      · omega
      · simp only [List.length_append, List.length_cons, List.length_nil]
        omega
    next => cases h
  next => cases h

/-- The place where the operand is due, and what a negation before it does to a phrase there. -/
theorem negation_sound (hRange : r.IsRange place stop) :
    place ≤ (r.negation stop place).2 ∧ (r.negation stop place).2 ≤ stop ∧
      ∀ level next f, r.Spells .atom level (r.negation stop place).2 next f →
        r.Spells .operand level place next (f.negateIf (r.negation stop place).1) := by
  unfold negation
  split
  -- the mark goes in front of the atom that follows
  next text offset hPeek =>
    obtain ⟨hLt, hToken⟩ := peek_eq_some_iff.mp hPeek
    refine ⟨Nat.le_succ _, hLt, ?_⟩
    rintro level next f ⟨tokens, deepest, hStands, rfl, hDeepest, hDerives⟩
    refine ⟨_, deepest, standsAt_cons.mpr ⟨hToken, hStands⟩, ?_, hDeepest,
      .negated _ rfl hDerives⟩
    rw [List.length_cons]
    omega
  next =>
    refine ⟨Nat.le_refl _, hRange.le, ?_⟩
    rintro level next f ⟨tokens, deepest, hStands, hLength, hDeepest, hDerives⟩
    exact ⟨tokens, deepest, hStands, hLength, hDeepest, .plain hDerives⟩

/-- With its first operand read, an answer of `chain` is an expression that fills the range. -/
theorem chain_sound {middle : Nat} (hExpr : r.ReadsRanges (level + 1) expr)
    (hFirst : r.Spells .operand level place middle f) (hRange : r.IsRange middle stop)
    (h : r.chain expr f stop middle = .ok (g, next)) :
    r.Spells .expression level place stop g ∧ next = stop := by
  obtain ⟨tokens, deepest, hStands, hLength, hDeepest, hDerives⟩ := hFirst
  unfold chain at h
  split at h
  next hPeek =>
    cases h
    -- nothing follows the operand, so the range ends here
    have hStop := hRange.eq_stop_of_peek_eq_none hPeek
    exact ⟨⟨tokens, deepest, hStands, hStop ▸ hLength, hDeepest, .last hDerives⟩, hStop⟩
  next op text offset hPeek =>
    obtain ⟨hLt, hToken⟩ := peek_eq_some_iff.mp hPeek
    -- all the rest of the range is the right side
    obtain ⟨⟨rest, next'⟩, hRest, hAnswer⟩ := exists_of_bind_eq_ok h
    cases hAnswer
    obtain ⟨⟨tokens', deepest', hStands', hLength', hDeepest', hDerives'⟩, hNext⟩ :=
      hExpr stop (middle + 1) rest _ (hRange.rest (Nat.le_succ _) hLt) hRest
    refine ⟨⟨tokens ++ ⟨.connective op, text, offset⟩ :: tokens', max deepest deepest', ?_, ?_,
      Nat.max_le.mpr ⟨hDeepest, hDeepest'⟩, .chain op _ rfl hDerives hDerives'⟩, hNext⟩
    · rw [standsAt_append, ← hLength, standsAt_cons]
      exact ⟨hStands, hToken, hStands'⟩
    · rw [List.length_append, List.length_cons]
      omega
  next => cases h

/-- **Soundness**: an expression that is read fills its range and is derived within the limit. -/
theorem expr_sound (hWell : r.WellFormed) (hLevels : level + levels = maxLevel + 1) :
    r.ReadsRanges level (r.expr levels) := by
  induction levels generalizing level with
  | zero =>
    intro stop place f next _ h
    cases h
  | succ levels ih =>
    have hExpr : r.ReadsRanges (level + 1) (r.expr levels) := ih (by omega)
    intro stop place f next hRange h
    rw [expr] at h
    -- a mark, an atom and the rest of the chain, each from where the one before ended
    obtain ⟨⟨first, middle⟩, hOperand, hChain⟩ := exists_of_bind_eq_ok h
    obtain ⟨hPlace, hStop, hNegate⟩ := negation_sound hRange
    obtain ⟨hLe, hLeStop, hAtom⟩ := operand_sound hWell hExpr (by omega)
      (hRange.rest hPlace hStop) hOperand
    exact chain_sound hExpr (hNegate _ _ _ hAtom)
      (hRange.rest (Nat.le_trans hPlace hLe) hLeStop) hChain

/-! ## Completeness -/

/-- The outcome of reading a phrase whose deepest operand is known: the formula and the place behind
the phrase, or that some operand is too deep. -/
structure Answers (deepest : Nat) (f : Formula) (next : Nat)
    (result : Except Cause (Formula × Nat)) : Prop where
  ok : deepest ≤ maxLevel → result = .ok (f, next)
  tooDeep : maxLevel < deepest → ∃ offset, result = .error (.tooDeep offset)

/-- Wherever the tokens stand, the reader answers them as a phrase at a level. An operand is not
read by a function of its own; a negation is looked for first, and then an atom is read. -/
def Completes (r : Reader) :
    Phrase → (level : Nat) → List Token → Formula → (deepest : Nat) → Prop
  | .atom, level, tokens, f, deepest => ∀ place stop levels, level + levels = maxLevel →
      StandsAt r.tokens.toList place tokens → place + tokens.length ≤ stop →
      Answers deepest f (place + tokens.length) (r.operand (r.expr levels) stop place)
  | .operand, level, tokens, f, deepest => ∀ place stop levels, level + levels = maxLevel →
      StandsAt r.tokens.toList place tokens → place + tokens.length ≤ stop →
      ∃ atom, f = atom.negateIf (r.negation stop place).1 ∧
        Answers deepest atom (place + tokens.length)
          (r.operand (r.expr levels) stop (r.negation stop place).2)
  | .expression, level, tokens, f, deepest => ∀ place levels, level + levels = maxLevel + 1 →
      StandsAt r.tokens.toList place tokens →
      Answers deepest f (place + tokens.length) (r.expr levels (place + tokens.length) place)

/-- Without levels every operand is too deep. -/
theorem answers_expr_zero (hDeepest : maxLevel < deepest) :
    Answers deepest f next (r.expr 0 stop place) :=
  ⟨fun h => by omega, fun _ => ⟨_, rfl⟩⟩

/-- An expression is answered by its first operand and what follows. -/
theorem expr_of_operand_ok {atom : Formula} {middle : Nat}
    (h : r.operand (r.expr levels) stop (r.negation stop place).2 = .ok (atom, middle)) :
    r.expr (levels + 1) stop place =
      r.chain (r.expr levels) (atom.negateIf (r.negation stop place).1) stop middle := by
  rw [expr]
  show (r.operand (r.expr levels) stop (r.negation stop place).2 >>= _) = _
  rw [h]
  rfl

/-- A failing operand fails the expression. -/
theorem expr_of_operand_error {cause : Cause}
    (h : r.operand (r.expr levels) stop (r.negation stop place).2 = .error cause) :
    r.expr (levels + 1) stop place = .error cause := by
  rw [expr]
  show (r.operand (r.expr levels) stop (r.negation stop place).2 >>= _) = _
  rw [h]
  rfl

/-- A name is read as its variable. -/
theorem completes_name (name : String) (offset : Nat) :
    r.Completes .atom level [⟨.name, name, offset⟩] (.var name) level := by
  intro place stop levels hLevel hStands hStop
  have hPeek : r.peek stop place = some ⟨.name, name, offset⟩ :=
    peek_eq_some_iff.mpr ⟨hStop, (standsAt_cons.mp hStands).1⟩
  constructor
  · intro _
    rw [operand, hPeek]
    rfl
  · intro hDeep
    omega

/-- An atom in parentheses is read if the expression between them is. -/
theorem completes_parentheses (hWell : r.WellFormed) {opening closing : Token}
    (hOpening : opening.kind = .opening) (hClosing : closing.kind = .closing)
    (hDerives : Derives .expression (level + 1) tokens f deepest)
    (hInner : r.Completes .expression (level + 1) tokens f deepest) :
    r.Completes .atom level (opening :: tokens ++ [closing]) f deepest := by
  intro place stop levels hLevel hStands hStop
  obtain ⟨hOpen, hWithin, hClose, -⟩ := standsAt_pair.mp hStands
  simp only [List.length_append, List.length_cons, List.length_nil] at hStop ⊢
  have hPeek : r.peek stop place = some opening := peek_eq_some_iff.mpr ⟨by omega, hOpen⟩
  -- the partner that was found is the one that the derivation has
  have hPartner : r.partners[place]? = some (some (place + 1 + tokens.length)) := by
    rw [hWell, getElem?_partners_eq_some_iff]
    exact ⟨⟨opening, hOpen, hOpening⟩, ⟨closing, hClose, hClosing⟩, tokens, hDerives.balanced,
      hWithin, rfl⟩
  obtain ⟨kind, text, offset⟩ := opening
  cases hOpening
  have hOperand : r.operand (r.expr levels) stop place =
      r.expr levels (place + 1 + tokens.length) (place + 1) >>= fun answer =>
        .ok (answer.1, place + 1 + tokens.length + 1) := by
    rw [operand, hPeek]
    simp only [hPartner]
    rfl
  -- so the answer is that of the expression between the two
  obtain ⟨hOk, hTooDeep⟩ := hInner (place + 1) levels (by omega) hWithin
  rw [hOperand]
  constructor
  · intro hDeepest
    rw [hOk hDeepest, show place + (tokens.length + 1 + (0 + 1)) = place + 1 + tokens.length + 1
      by omega]
    rfl
  · intro hDeepest
    obtain ⟨offset, hError⟩ := hTooDeep hDeepest
    rw [hError]
    exact ⟨offset, rfl⟩

/-- An unmarked operand is read if the atom is. -/
theorem completes_plain (hDerives : Derives .atom level tokens f deepest)
    (hAtom : r.Completes .atom level tokens f deepest) :
    r.Completes .operand level tokens f deepest := by
  intro place stop levels hLevel hStands hStop
  obtain ⟨token, rest, rfl, hKind⟩ := hDerives.exists_cons_of_atom
  have hPeek : r.peek stop place = some token := by
    rw [List.length_cons] at hStop
    exact peek_eq_some_iff.mpr ⟨by omega, (standsAt_cons.mp hStands).1⟩
  -- an atom starts with no mark, so none is passed over
  have hNegation : r.negation stop place = (false, place) := by
    unfold negation
    rw [hPeek]
    split
    next h => cases h; cases hKind rfl
    next => rfl
  rw [hNegation]
  exact ⟨f, rfl, hAtom place stop levels hLevel hStands hStop⟩

/-- A marked operand is read if the atom behind the mark is. -/
theorem completes_negated {negation : Token} (hNegation : negation.kind = .negation)
    (hAtom : r.Completes .atom level tokens f deepest) :
    r.Completes .operand level (negation :: tokens) f.negate deepest := by
  intro place stop levels hLevel hStands hStop
  obtain ⟨hToken, hRest⟩ := standsAt_cons.mp hStands
  rw [List.length_cons] at hStop ⊢
  have hPeek : r.peek stop place = some negation := peek_eq_some_iff.mpr ⟨by omega, hToken⟩
  have hLook : r.negation stop place = (true, place + 1) := by
    obtain ⟨kind, text, offset⟩ := negation
    cases hNegation
    rw [Reader.negation, hPeek]
  rw [hLook, show place + (tokens.length + 1) = place + 1 + tokens.length by omega]
  exact ⟨f, rfl, hAtom (place + 1) stop levels hLevel hRest (by omega)⟩

/-- An expression that is one operand is read if the operand is. -/
theorem completes_last (hDerives : Derives .operand level tokens f deepest)
    (hOperand : r.Completes .operand level tokens f deepest) :
    r.Completes .expression level tokens f deepest := by
  intro place levels hLevel hStands
  have hLe := hDerives.le_deepest
  cases levels with
  | zero => exact answers_expr_zero (by omega)
  | succ levels =>
    obtain ⟨atom, rfl, hOk, hTooDeep⟩ :=
      hOperand place (place + tokens.length) levels (by omega) hStands (Nat.le_refl _)
    constructor
    · intro hDeepest
      -- the range ends with the operand
      have hPeek : r.peek (place + tokens.length) (place + tokens.length) = none := by
        rw [peek, if_neg (Nat.lt_irrefl _)]
      rw [expr_of_operand_ok (hOk hDeepest), chain, hPeek]
    · intro hDeepest
      obtain ⟨offset, hError⟩ := hTooDeep hDeepest
      exact ⟨offset, expr_of_operand_error hError⟩

/-- An expression that goes on is read if its operand and its rest are. -/
theorem completes_chain {deepest' : Nat} {rest : List Token} {op : Connective} {operator : Token}
    (hOperator : operator.kind = .connective op)
    (hDerives : Derives .operand level tokens f deepest)
    (hOperand : r.Completes .operand level tokens f deepest)
    (hRest : r.Completes .expression (level + 1) rest g deepest') :
    r.Completes .expression level (tokens ++ operator :: rest) (.join op f g)
      (max deepest deepest') := by
  intro place levels hLevel hStands
  have hLe := hDerives.le_deepest
  cases levels with
  | zero => exact answers_expr_zero (by omega)
  | succ levels =>
    obtain ⟨hFirst, hBehind⟩ := standsAt_append.mp hStands
    obtain ⟨hToken, hStandsRest⟩ := standsAt_cons.mp hBehind
    simp only [List.length_append, List.length_cons]
    rw [show place + (tokens.length + (rest.length + 1)) =
      place + tokens.length + 1 + rest.length by omega]
    obtain ⟨atom, rfl, hOk, hTooDeep⟩ := hOperand place (place + tokens.length + 1 + rest.length)
      levels (by omega) hFirst (by omega)
    obtain ⟨hRestOk, hRestTooDeep⟩ :=
      hRest (place + tokens.length + 1) levels (by omega) hStandsRest
    have hPeek : r.peek (place + tokens.length + 1 + rest.length) (place + tokens.length) =
        some operator := peek_eq_some_iff.mpr ⟨by omega, hToken⟩
    obtain ⟨kind, text, offset⟩ := operator
    cases hOperator
    have hChain (first : Formula) : r.chain (r.expr levels) first
        (place + tokens.length + 1 + rest.length) (place + tokens.length) =
        r.expr levels (place + tokens.length + 1 + rest.length) (place + tokens.length + 1) >>=
          fun answer => .ok (.join op first answer.1, answer.2) := by
      rw [chain, hPeek]
      rfl
    constructor
    · intro hDeepest
      rw [expr_of_operand_ok (hOk (by omega)), hChain, hRestOk (by omega)]
      rfl
    · intro hDeepest
      -- the first operand may already be too deep; otherwise the rest is read, and it is
      rcases Nat.lt_or_ge maxLevel deepest with hDeep | hShallow
      · obtain ⟨offset, hError⟩ := hTooDeep hDeep
        exact ⟨offset, expr_of_operand_error hError⟩
      · obtain ⟨offset, hError⟩ := hRestTooDeep (by omega)
        rw [expr_of_operand_ok (hOk hShallow), hChain, hError]
        exact ⟨offset, rfl⟩

/-- **Completeness**: what is derived is answered, wherever it stands. -/
theorem completes_of_derives (hWell : r.WellFormed)
    (h : Derives phrase level tokens f deepest) : r.Completes phrase level tokens f deepest := by
  induction h with
  | name name offset => exact completes_name name offset
  | parentheses opening closing hOpening hClosing hDerives ih =>
    exact completes_parentheses hWell hOpening hClosing hDerives ih
  | plain hDerives ih => exact completes_plain hDerives ih
  | negated negation hNegation _ ih => exact completes_negated hNegation ih
  | last hDerives ih => exact completes_last hDerives ih
  | chain op operator hOperator hDerives _ ih ihRest =>
    exact completes_chain hOperator hDerives ih ihRest

end Reader

namespace Formula

/-! ## Chains of implications -/

theorem isWord_A : IsWord "A" := by decide

/-- `A => A => … => A`, with as many operators as said. -/
def implicationText (n : Nat) : String := " => ".intercalate (List.replicate (n + 1) "A")

/-- The formula of `implicationText`. -/
def implications : Nat → Formula
  | 0 => var "A"
  | n + 1 => join .implies (var "A") (implications n)

/-- A longer chain of implications begins with one more `A =>`. -/
theorem toList_implicationText_succ (n : Nat) : (implicationText (n + 1)).toList =
    "A".toList ++ ' ' :: (['=', '>'] ++ ' ' :: (implicationText n).toList) := by
  unfold implicationText
  rw [List.replicate_succ, List.replicate_succ, String.intercalate_cons_cons,
    ← List.replicate_succ]
  simp [String.toList_append]

/-- Each operator leads one level deeper. -/
theorem derives_implications (n level : Nat) : ∃ tokens,
    Token.senses (implicationText n).toList = tokens.map Token.sense ∧
      Derives .expression level tokens (implications n) (level + n) := by
  induction n generalizing level with
  | zero =>
    refine ⟨[⟨.name, "A", 0⟩], ?_, .last (.plain (.name "A" 0))⟩
    have hSenses := senses_name isWord_A atBoundary_nil
    rw [List.append_nil] at hSenses
    exact hSenses
  | succ n ih =>
    obtain ⟨tokens, hSenses, hDerives⟩ := ih (level + 1)
    refine ⟨[⟨.name, "A", 0⟩] ++ Token.sign (.connective .implies) :: tokens, ?_, ?_⟩
    · have hSymbol : senses (['=', '>'] ++ ' ' :: (implicationText n).toList) =
          (.connective .implies, none) :: senses (' ' :: (implicationText n).toList) :=
        senses_lexeme rfl rfl
      rw [toList_implicationText_succ, senses_name isWord_A atBoundary_blank, senses_blank rfl,
        hSymbol, senses_blank rfl, hSenses]
      rfl
    -- the chain is as deep as its last operand, one level further down for each implication
    · have hChain : Derives .expression level _ _ (max level (level + 1 + n)) :=
        .chain .implies (Token.sign (.connective .implies)) rfl (.plain (.name "A" 0)) hDerives
      rw [show level + (n + 1) = max level (level + 1 + n) by omega]
      exact hChain

/-- The text of a chain of implications derives the chain, at a level as deep as it is long. -/
theorem derives_implicationText (n : Nat) :
    Derives .expression 0 (Token.ofText (implicationText n)).toList (implications n) n := by
  obtain ⟨tokens, hSenses, hDerives⟩ := derives_implications n 0
  rw [Nat.zero_add] at hDerives
  exact hDerives.congr hSenses

/-! ## Reading a text -/

/-- The tokens of a text that is read are derived within the limit. -/
theorem exists_derives_of_parse_eq_ok {text : String} (h : parse text = .ok f) :
    ∃ deepest, Derives .expression 0 (Token.ofText text).toList f deepest ∧
      deepest ≤ maxLevel := by
  have hSound := Reader.expr_sound (Reader.wellFormed_ofText text) (Nat.zero_add (maxLevel + 1))
  unfold parse at h
  dsimp only at h
  split at h
  next f next hExpr =>
    cases h
    obtain ⟨⟨tokens, deepest, hStands, hLength, hDeepest, hDerives⟩, -⟩ :=
      hSound _ 0 _ next (Reader.isRange_all _) hExpr
    -- an expression over all the places is spelled by all the tokens
    have hAll : tokens = (Token.ofText text).toList := by
      apply hStands.eq_of_length
      rw [Array.length_toList]
      exact (hLength.trans (Nat.zero_add _)).symm
    exact ⟨deepest, hAll ▸ hDerives, hDeepest⟩
  next => cases h

/-- Derived tokens are read if no operand is beyond the limit, and refused as too deep else. -/
theorem answers_of_derives {text : String}
    (h : Derives .expression 0 (Token.ofText text).toList f deepest) :
    (deepest ≤ maxLevel → parse text = .ok f) ∧
      (maxLevel < deepest → ∃ offset, parse text = .error ⟨text, .tooDeep offset⟩) := by
  obtain ⟨hOk, hTooDeep⟩ := Reader.completes_of_derives (Reader.wellFormed_ofText text) h 0
    (maxLevel + 1) (Nat.zero_add _) (standsAt_zero _)
  rw [Nat.zero_add, Array.length_toList] at hOk hTooDeep
  unfold parse
  dsimp only
  constructor
  · intro hDeepest
    rw [show (Reader.ofText text).tokens = Token.ofText text from rfl, hOk hDeepest]
  · intro hDeepest
    obtain ⟨offset, hError⟩ := hTooDeep hDeepest
    rw [show (Reader.ofText text).tokens = Token.ofText text from rfl, hError]
    exact ⟨offset, rfl⟩

theorem parse_implications {n : Nat} (h : n ≤ maxLevel) :
    parse (implicationText n) = .ok (implications n) :=
  (answers_of_derives (derives_implicationText n)).1 h

/-- **Reading is deriving.** A text is read as a formula if and only if its tokens derive the
formula with no operand beyond the limit; if they derive it only with an operand beyond the limit,
the text is refused as too deep. -/
theorem parse_eq_ok_iff_derives (text : String) :
    (∀ f, parse text = .ok f ↔
      ∃ deepest, Derives .expression 0 (Token.ofText text).toList f deepest ∧
        deepest ≤ maxLevel) ∧
      ∀ f deepest, Derives .expression 0 (Token.ofText text).toList f deepest →
        maxLevel < deepest → ∃ offset, parse text = .error ⟨text, .tooDeep offset⟩ := by
  refine ⟨fun f => ⟨exists_derives_of_parse_eq_ok, ?_⟩, ?_⟩
  · rintro ⟨deepest, hDerives, hDeepest⟩
    exact (answers_of_derives hDerives).1 hDeepest
  · intro f deepest hDerives
    exact (answers_of_derives hDerives).2

/-- The limit is sharp: 256 operators in a chain are read, and one more is too many. -/
theorem parse_implications_at_limit :
    parse (implicationText maxLevel) = .ok (implications maxLevel) ∧
      ∃ offset, parse (implicationText (maxLevel + 1)) =
        .error ⟨implicationText (maxLevel + 1), .tooDeep offset⟩ := by
  have hWithin := derives_implicationText maxLevel
  have hBeyond := derives_implicationText (maxLevel + 1)
  constructor
  · exact ((parse_eq_ok_iff_derives _).1 _).mpr ⟨maxLevel, hWithin, Nat.le_refl _⟩
  · exact (parse_eq_ok_iff_derives _).2 _ _ hBeyond (Nat.lt_succ_self _)

end Formula

end Propositional
