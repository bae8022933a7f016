import Propositional.Proofs.Segmentation
import Propositional.Proofs.Visiting

/-!
# Propositional — where a text is refused

An error is made by one call and passed on by all the calls around it. So what an error says is
said at a call that is reached (`Reader.exists_refuses`), and what is known of such calls tells
where in the text it points:

* A token that it names is one of the text's tokens, spelled there at its offset.
* If an operand is missing, the range of the call has ended: with the text, or at the parenthesis
  that closes the innermost one that is open.
* Every other place is the beginning of a token, or the end of the text.

Main result: `Formula.parse_error_located`.
-/

namespace Propositional

open Token ParseError

namespace Reader

variable {r : Reader} {v : Visit} {cause : Cause}

/-! ## Refusals -/

/-- What a call refuses itself, apart from what the calls that it makes refuse. -/
inductive Refuses (r : Reader) (v : Visit) : Cause → Prop
  | tooDeep (hLevel : maxLevel < v.level) : Refuses r v (.tooDeep (r.offset v.place))
  | missingOperand (hPeek : r.peek v.stop (r.negation v.stop v.place).2 = none) :
    Refuses r v (.missingOperand (r.offset v.stop))
  | unexpected {token : Token} (hPeek : r.peek v.stop (r.negation v.stop v.place).2 = some token)
    (hKind : token.kind ≠ .name ∧ token.kind ≠ .opening) :
    Refuses r v (.unexpected token.text token.offset)
  | unclosedParenthesis
    (hPartner : ∀ close, r.partners[(r.negation v.stop v.place).2]? ≠ some (some close)) :
    Refuses r v .unclosedParenthesis
  | missingOperator {token : Token} {middle : Nat} (hPeek : r.peek v.stop middle = some token)
    (hKind : ∀ op, token.kind ≠ .connective op) :
    Refuses r v (.missingOperator token.text token.offset)

/-- An operand is refused by the call, or by the one that it makes for what is in parentheses. -/
theorem operand_refuses (hLevel : v.level ≤ maxLevel)
    (h : r.operand (r.expr (maxLevel - v.level)) v.stop (r.negation v.stop v.place).2 =
      .error cause) :
    r.Refuses v cause ∨ ∃ v', r.Makes v v' ∧ r.answer v' = .error cause := by
  unfold operand at h
  split at h
  -- what is seen decides: nothing, a name, a parenthesis, or something that cannot stand here
  next hPeek =>
    cases h
    exact .inl (.missingOperand hPeek)
  next => cases h
  next text offset hPeek =>
    split at h
    next close hPartner =>
      rcases error_of_bind_eq_error h with hInner | ⟨answer, -, hAnswer⟩
      · exact .inr ⟨_, .inside hLevel hPeek hPartner, (answer_next _ _ _).trans hInner⟩
      · -- behind the parentheses nothing can fail any more
        cases hAnswer
    next hPartner =>
      cases h
      exact .inl (.unclosedParenthesis hPartner)
  next kind text offset hName hOpening hPeek =>
    cases h
    exact .inl (.unexpected hPeek ⟨fun hKind => hName hKind, fun hKind => hOpening hKind⟩)

/-- What follows an operand is refused by the call, or by the one that it makes behind an
operator. -/
theorem chain_refuses {first : Formula} {middle : Nat} (hLevel : v.level ≤ maxLevel)
    (hOperand : r.operand (r.expr (maxLevel - v.level)) v.stop (r.negation v.stop v.place).2 =
      .ok (first, middle))
    (h : r.chain (r.expr (maxLevel - v.level)) (first.negateIf (r.negation v.stop v.place).1)
      v.stop middle = .error cause) :
    r.Refuses v cause ∨ ∃ v', r.Makes v v' ∧ r.answer v' = .error cause := by
  unfold chain at h
  split at h
  next => cases h
  next op text offset hPeek =>
    -- the right side fails, since nothing is left to fail behind it
    rcases error_of_bind_eq_error h with hRest | ⟨answer, -, hAnswer⟩
    · exact .inr ⟨_, .behind hLevel hOperand hPeek, (answer_next _ _ _).trans hRest⟩
    · cases hAnswer
  next kind text offset hOperator hPeek =>
    cases h
    exact .inl (.missingOperator hPeek fun op hKind => hOperator op hKind)

/-- One call refuses itself what it answers, or passes on what a call that it makes answers. -/
theorem refuses_or_makes (h : r.answer v = .error cause) :
    r.Refuses v cause ∨ ∃ v', r.Makes v v' ∧ r.answer v' = .error cause := by
  rcases Nat.lt_or_ge maxLevel v.level with hDeep | hLevel
  · rw [answer_of_lt hDeep] at h
    cases h
    exact .inl (.tooDeep hDeep)
  · rw [answer_of_le hLevel] at h
    rcases error_of_bind_eq_error h with hOperand | ⟨⟨first, middle⟩, hOperand, hChain⟩
    · exact operand_refuses hLevel hOperand
    · exact chain_refuses hLevel hOperand hChain

/-- **An error comes from a call that refuses it itself.** -/
theorem exists_refuses (h : r.answer v = .error cause) :
    ∃ v', Relation.ReflTransGen r.Makes v v' ∧ r.Refuses v' cause := by
  -- by induction on the levels that are left: a call that passes an error on had it from a call
  -- that is one level deeper
  induction hLeft : maxLevel + 1 - v.level using Nat.strong_induction_on generalizing v with
  | _ left ih =>
    rcases refuses_or_makes h with hRefuses | ⟨v', hMakes, hAnswer⟩
    · exact ⟨v, .refl, hRefuses⟩
    · obtain ⟨hLevel, hNext⟩ := hMakes.level_eq
      obtain ⟨v'', hReaches, hRefuses⟩ := ih _ (by omega) hAnswer rfl
      exact ⟨v'', .head hMakes hReaches, hRefuses⟩

end Reader

/-! ## Places in the text -/

namespace Token

variable {text : List Char} {kind : Kind} {spelling : List Char}

/-- Nothing but a parenthesis is cut as a parenthesis. -/
theorem IsCut.parenthesis (h : IsCut text kind spelling) :
    (kind = .opening → spelling = ['(']) ∧ (kind = .closing → spelling = [')']) := by
  have hSymbols : ∀ symbol ∈ symbols, symbol.2 ≠ .opening ∧ symbol.2 ≠ .closing := by decide
  have hKeywords : ∀ keyword ∈ keywords, keyword.2 ≠ .opening ∧ keyword.2 ≠ .closing := by decide
  -- neither a symbol nor a keyword stands for a parenthesis
  cases h with
  | opening => exact ⟨fun _ => rfl, nofun⟩
  | closing => exact ⟨nofun, fun _ => rfl⟩
  | symbol symbol h =>
    obtain ⟨hOpening, hClosing⟩ := hSymbols symbol h.mem
    exact ⟨fun hKind => absurd hKind hOpening, fun hKind => absurd hKind hClosing⟩
  | keyword keyword _ _ _ _ hMem =>
    obtain ⟨hOpening, hClosing⟩ := hKeywords keyword hMem
    exact ⟨fun hKind => absurd hKind hOpening, fun hKind => absurd hKind hClosing⟩
  | name => exact ⟨nofun, nofun⟩

end Token

/-- A parenthesis that closes an earlier one stands at the offset. -/
def ClosesAt (text : String) (offset : Nat) : Prop :=
  ∃ start close opening closing, Matched (ofText text).toList start close ∧
    (ofText text).toList[start]? = some opening ∧ (ofText text).toList[close]? = some closing ∧
    opening.offset < offset ∧ closing.offset = offset ∧
    text.toList[opening.offset]? = some '(' ∧ text.toList[offset]? = some ')'

/-- Where in its text an error is. -/
structure IsLocated (text : String) (cause : Cause) : Prop where
  within : ∀ offset ∈ cause.offset?, offset ≤ text.length
  spelled : ∀ found offset,
    cause = .unexpected found offset ∨ cause = .missingOperator found offset →
      found ≠ "" ∧ found.toList <+: text.toList.drop offset
  ends : ∀ offset, cause = .missingOperand offset → offset = text.length ∨ ClosesAt text offset

namespace Reader

variable {text : String} {v : Visit} {cause : Cause}

/-- A place is the beginning of a token or the end of the text. -/
theorem offset_le (text : String) (place : Nat) : (ofText text).offset place ≤ text.length := by
  unfold offset
  split
  next token hToken =>
    have hMem : token ∈ (ofText text).tokens.toList :=
      List.mem_of_getElem? ((Array.getElem?_toList).trans hToken)
    have hBefore := ((offsets_scan text.toList 0 0).2 token hMem).2
    rw [Nat.zero_add, String.length_toList] at hBefore
    exact Nat.le_of_lt hBefore
  next => exact Nat.le_refl _

/-- Matched parentheses are spelled as such in the text. -/
theorem closesAt_of_matched {start close : Nat}
    (h : Matched (ofText text).tokens.toList start close) :
    ClosesAt text ((ofText text).offset close) := by
  obtain ⟨opening, hOpen, hOpens⟩ := h.opening
  obtain ⟨closing, hClose, hCloses⟩ := h.closing
  have hCutting := isCutting_ofText text
  have hOpenMem := List.mem_of_getElem? hOpen
  have hCloseMem := List.mem_of_getElem? hClose
  -- the one character of a token stands at its offset
  have hChar {token : Token} {c : Char} (hMem : token ∈ (ofText text).tokens.toList)
      (hText : token.text.toList = [c]) : text.toList[token.offset]? = some c := by
    obtain ⟨rest, hRest⟩ := (hCutting.spelled token hMem).2
    rw [← List.head?_drop, ← hRest, hText]
    rfl
  refine ⟨start, close, opening, closing, h, hOpen, hClose, ?_, (offset_eq hClose).symm, ?_, ?_⟩
  · -- places are in the order of their offsets
    exact (offset_lt_iff hOpen).mpr h.lt
  · exact hChar hOpenMem ((hCutting.cut opening hOpenMem).parenthesis.1 hOpens)
  · rw [offset_eq hClose]
    exact hChar hCloseMem ((hCutting.cut closing hCloseMem).parenthesis.2 hCloses)

/-- A token that is looked at is spelled in the text at its offset. -/
theorem spelled_of_peek {stop place : Nat} {token : Token}
    (h : (ofText text).peek stop place = some token) :
    token.offset ≤ text.length ∧ token.text ≠ "" ∧
      token.text.toList <+: text.toList.drop token.offset := by
  obtain ⟨-, hToken⟩ := peek_eq_some_iff.mp h
  have hOffset := offset_le text place
  rw [offset_eq hToken] at hOffset
  exact ⟨hOffset, (isCutting_ofText text).spelled token (List.mem_of_getElem? hToken)⟩

/-- What a call that is reached refuses is located where the call says. -/
theorem Refuses.isLocated (h : (ofText text).Refuses v cause) (hReaches : (ofText text).Reaches v) :
    IsLocated text cause where
  within := by
    intro offset hOffset
    cases h with
    | tooDeep | missingOperand =>
      cases hOffset
      exact offset_le text _
    | unexpected hPeek | missingOperator hPeek =>
      cases hOffset
      exact (spelled_of_peek hPeek).1
    | unclosedParenthesis => cases hOffset
  spelled := by
    intro found offset hCause
    cases h with
    | unexpected hPeek | missingOperator hPeek =>
      rcases hCause with hCause | hCause <;> cases hCause
      exact (spelled_of_peek hPeek).2
    | tooDeep | missingOperand | unclosedParenthesis =>
      rcases hCause with hCause | hCause <;> cases hCause
  ends := by
    rintro offset rfl
    cases h
    -- the range ends with the text, or at the partner of the innermost open parenthesis
    obtain ⟨opened, hCall⟩ := hReaches.exists_call (wellFormed_ofText text)
    cases opened with
    | none =>
      have hStop : v.stop = (ofText text).tokens.size := hCall.ends
      left
      rw [Reader.offset, hStop, Array.getElem?_eq_none (Nat.le_refl _)]
      rfl
    | some start => exact .inr (closesAt_of_matched hCall.ends)

end Reader

namespace Formula

variable {text : String} {e : ParseError}

/-- What a text is refused for is what its first call answers. -/
theorem answer_of_parse_eq_error (h : parse text = .error e) :
    e.source = text ∧ (Reader.ofText text).answer ⟨0, (Reader.ofText text).tokens.size, 0⟩ =
      .error e.cause := by
  unfold parse at h
  dsimp only at h
  split at h
  next => cases h
  next cause hExpr =>
    cases h
    exact ⟨rfl, hExpr⟩

/-- **An error points into its text.** It carries the whole text. Its offset is within the text; a
token that it names is spelled there; a missing operand is noticed where the text ends or where a
parenthesis closes an earlier one; and only an unclosed parenthesis is pointed at by no offset. -/
theorem parse_error_located (h : parse text = .error e) :
    e.source = text ∧ IsLocated text e.cause ∧
      (e.cause.offset? = none ↔ e.cause = .unclosedParenthesis) := by
  obtain ⟨hSource, hAnswer⟩ := answer_of_parse_eq_error h
  obtain ⟨v, hReaches, hRefuses⟩ := Reader.exists_refuses hAnswer
  refine ⟨hSource, hRefuses.isLocated hReaches, ?_⟩
  -- every other cause has an offset
  cases e.cause <;> simp [Cause.offset?]

/-- An operand that is missing behind a mark of two bytes, and a token that is named behind one. -/
theorem parse_error_located_marked :
    let text := "(¬A ∧ ) ∨ B"
    let text' := "¬ A é "
    parse text = .error ⟨text, .missingOperand 6⟩ ∧ ClosesAt text 6 ∧
      parse text' = .error ⟨text', .missingOperator "é" 4⟩ ∧
      "é".toList <+: text'.toList.drop 4 := by
  intro text text'
  have hParse : parse text = .error ⟨text, .missingOperand 6⟩ := by decide
  have hParse' : parse text' = .error ⟨text', .missingOperator "é" 4⟩ := by decide
  have hLength : 6 ≠ text.length := by decide
  obtain ⟨-, hLocated, -⟩ := parse_error_located hParse
  obtain ⟨-, hLocated', -⟩ := parse_error_located hParse'
  exact ⟨hParse, (hLocated.ends 6 rfl).resolve_left hLength, hParse',
    (hLocated'.spelled "é" 4 (.inr rfl)).2⟩

end Formula

end Propositional
