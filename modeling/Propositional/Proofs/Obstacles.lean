import Propositional.Proofs.Beginnings

/-!
# Propositional — the place of an error

An error points at the first token that cannot be continued. The tokens before it begin a text
that is read; with the token they begin none. An error that says that a text is too deep points
behind tokens that only the limit keeps from being continued.

A reader works on ranges, and where a range ends depends on tokens far behind. What it knows
nevertheless is about the tokens before its place alone (`Reader.Call`): an expression is due
there, and the range ends with the partner of the innermost parenthesis that is open. Each of
its functions keeps this for the calls that it makes, and stops only where nothing that is due
comes next (`Reader.Blames`).

Main result: `Formula.parse_error_explained`.
-/

namespace Propositional

open Token ParseError

variable {level levels deepest : Nat} {front tokens part : List Token} {f g : Formula}
variable {token : Token} {opened : Option Nat} {place stop : Nat}

/-! ## Places -/

namespace Token

/-- Up to the end of a part there are the tokens before it and the part. -/
theorem StandsAt.take_eq (h : StandsAt tokens place part) :
    tokens.take (place + part.length) = tokens.take place ++ part := by
  rw [List.take_add, ← List.prefix_iff_eq_take.mp h]

theorem take_succ_eq (h : tokens[place]? = some token) :
    tokens.take (place + 1) = tokens.take place ++ [token] :=
  StandsAt.take_eq (standsAt_cons.mpr ⟨h, standsAt_nil⟩)

/-- The tokens of a text begin one after the other and within the text. -/
theorem offsets_scan (text : List Char) (offset skip : Nat) :
    (scan text offset skip #[]).toList.Pairwise (fun t t' => t.offset < t'.offset) ∧
      ∀ t ∈ (scan text offset skip #[]).toList, offset ≤ t.offset ∧
        t.offset < offset + text.length := by
  induction text generalizing offset skip with
  | nil => simp [scan]
  | cons c rest ih =>
    -- one character further on, all tokens begin behind this one
    have hLater (skip : Nat) : ∀ t ∈ (scan rest (offset + 1) skip #[]).toList,
        offset < t.offset ∧ t.offset < offset + (c :: rest).length := by
      intro t hMem
      obtain ⟨hAfter, hBefore⟩ := (ih (offset + 1) skip).2 t hMem
      rw [List.length_cons]
      omega
    have hRest (skip : Nat) : ∀ t ∈ (scan rest (offset + 1) skip #[]).toList,
        offset ≤ t.offset ∧ t.offset < offset + (c :: rest).length := by
      intro t hMem
      exact ⟨Nat.le_of_lt (hLater skip t hMem).1, (hLater skip t hMem).2⟩
    cases skip with
    | succ skip => exact ⟨(ih (offset + 1) skip).1, hRest skip⟩
    | zero =>
      rw [scan]
      split
      · exact ⟨(ih (offset + 1) 0).1, hRest 0⟩
      · -- the token that begins here comes first
        rw [toList_scan]
        refine ⟨List.pairwise_cons.mpr ⟨fun t hMem => (hLater _ t hMem).1, (ih _ _).1⟩, ?_⟩
        refine List.forall_mem_cons.mpr ⟨⟨Nat.le_refl _, ?_⟩, hRest _⟩
        simp

/-- The tokens of a text before an offset. -/
def before (text : String) (offset : Nat) : List Token :=
  (ofText text).toList.filter fun token => token.offset < offset

end Token

namespace Reader

variable {text : String} {i : Nat}

/-- In a text the tokens before a place are those that begin before it. -/
theorem offset_lt_iff (h : (ofText text).tokens.toList[i]? = some token) :
    token.offset < (ofText text).offset place ↔ i < place := by
  obtain ⟨hAscending, hWithin⟩ := offsets_scan text.toList 0 0
  obtain ⟨hi, rfl⟩ := List.getElem?_eq_some_iff.mp h
  have hOrder := List.pairwise_iff_getElem.mp hAscending
  unfold offset
  split
  next found hFound =>
    rw [← Array.getElem?_toList] at hFound
    obtain ⟨hPlace, rfl⟩ := List.getElem?_eq_some_iff.mp hFound
    rcases Nat.lt_trichotomy i place with hBefore | rfl | hBehind
    · exact iff_of_true (hOrder i place hi hPlace hBefore) hBefore
    · exact iff_of_false (Nat.lt_irrefl _) (Nat.lt_irrefl _)
    · exact iff_of_false (Nat.lt_asymm (hOrder place i hPlace hi hBehind)) (Nat.lt_asymm hBehind)
  next hNone =>
    -- behind the last token is the end of the text
    have hLength := (hWithin _ (List.getElem_mem hi)).2
    rw [Nat.zero_add, String.length_toList] at hLength
    rw [← Array.getElem?_toList, List.getElem?_eq_none_iff] at hNone
    exact iff_of_true hLength (Nat.lt_of_lt_of_le hi hNone)

theorem offset_eq {r : Reader} (h : r.tokens.toList[place]? = some token) :
    r.offset place = token.offset := by
  rw [Array.getElem?_toList] at h
  rw [offset, h]

/-- At the offset of a place stands the token of the place. -/
theorem getElem?_of_offset_eq (hMem : token ∈ (ofText text).tokens)
    (hOffset : token.offset = (ofText text).offset place) :
    (ofText text).tokens.toList[place]? = some token := by
  obtain ⟨i, h⟩ := List.getElem?_of_mem (Array.mem_toList_iff.mpr hMem)
  have hNotBefore : ¬ i < place := by
    rw [← offset_lt_iff h]
    omega
  rcases Nat.eq_or_lt_of_not_lt hNotBefore with rfl | hBehind
  · exact h
  · -- else the token of the place would begin before it
    have hi : i < (ofText text).tokens.toList.length := (List.getElem?_eq_some_iff.mp h).1
    have hFound := List.getElem?_eq_getElem (Nat.lt_trans hBehind hi)
    have hLt := (offset_lt_iff hFound).mpr hBehind
    rw [offset_eq h, hOffset, offset_eq hFound] at hLt
    exact absurd hLt (Nat.lt_irrefl _)

/-- The tokens before the offset of a place are those before the place. -/
theorem before_offset (text : String) (place : Nat) :
    before text ((ofText text).offset place) = (ofText text).tokens.toList.take place := by
  -- tokens are in the order of their offsets, so the filter keeps a front of them
  have hFront : ∀ token ∈ (ofText text).tokens.toList.take place,
      token.offset < (ofText text).offset place := by
    intro token hMem
    obtain ⟨i, h⟩ := List.getElem?_of_mem hMem
    rw [List.getElem?_take] at h
    split at h
    next hi => exact (offset_lt_iff h).mpr hi
    next => cases h
  have hBack : ∀ token ∈ (ofText text).tokens.toList.drop place,
      ¬ token.offset < (ofText text).offset place := by
    intro token hMem
    obtain ⟨i, h⟩ := List.getElem?_of_mem hMem
    rw [List.getElem?_drop] at h
    rw [offset_lt_iff h]
    omega
  have hSplit := List.take_append_drop place (ofText text).tokens.toList
  show (ofText text).tokens.toList.filter _ = _
  nth_rewrite 1 [← hSplit]
  rw [List.filter_append, List.filter_eq_self.mpr (by simpa using hFront),
    List.filter_eq_nil_iff.mpr (by simpa using hBack), List.append_nil]

/-- A computation that fails has failed at its first step or after it. -/
theorem error_of_bind_eq_error {ε α β : Type} {x : Except ε α} {next : α → Except ε β} {e : ε}
    (h : x >>= next = .error e) : x = .error e ∨ ∃ a, x = .ok a ∧ next a = .error e := by
  cases x with
  | error e' =>
    cases h
    exact .inl rfl
  | ok a => exact .inr ⟨a, rfl, h⟩

/-! ## What a reader knows -/

variable {r : Reader} {next : Nat} {mark : Option Token}

/-- A range ends with the partner of the innermost open parenthesis, or with the tokens. -/
def Ends (r : Reader) (stop : Nat) : Option Nat → Prop
  | none => stop = r.tokens.size
  | some start => Matched r.tokens.toList start stop

/-- If a token stands where a range ends, it is a closing parenthesis. -/
theorem Ends.kind_eq (h : r.Ends stop opened) (hToken : r.tokens.toList[stop]? = some token) :
    token.kind = .closing := by
  cases opened with
  -- behind the last token there is none
  | none =>
    have hLt := (List.getElem?_eq_some_iff.mp hToken).1
    rw [show stop = r.tokens.size from h, Array.length_toList] at hLt
    exact absurd hLt (Nat.lt_irrefl _)
  | some start =>
    obtain ⟨closing, hClosing, hKind⟩ := Matched.closing h
    rw [hToken, Option.some.injEq] at hClosing
    rw [hClosing, hKind]

/-- What is known where an expression is read: it is due there, in a range that ends where it has
to. -/
structure Call (r : Reader) (level : Nat) (opened : Option Nat) (place stop : Nat) : Prop where
  range : r.IsRange place stop
  awaits : Awaits level opened (r.tokens.toList.take place)
  ends : r.Ends stop opened

theorem call_all (r : Reader) : r.Call 0 none 0 r.tokens.size := by
  refine ⟨r.isRange_all, ?_, rfl⟩
  rw [List.take_zero]
  exact .start

theorem Call.length_take (h : r.Call level opened place stop) :
    (r.tokens.toList.take place).length = place := by
  have hPlace : place ≤ r.tokens.size := Nat.le_trans h.range.le h.range.le_size
  rw [List.length_take, Array.length_toList, Nat.min_eq_left hPlace]

/-- Where a parenthesis opens, an expression is due behind it. -/
theorem Call.inside {start close : Nat} (h : r.Call level opened place stop)
    (hMark : ∀ token ∈ mark, token.kind = .negation)
    (hStands : StandsAt r.tokens.toList place mark.toList)
    (hStart : start = place + mark.toList.length) (hMatched : Matched r.tokens.toList start close) :
    r.Call (level + 1) (some start) (start + 1) close := by
  refine ⟨isRange_of_matched hMatched, ?_, hMatched⟩
  obtain ⟨paren, hParen, hOpens⟩ := hMatched.opening
  -- the mark and the parenthesis lead one level further down
  have hAwaits := h.awaits.opening mark paren hMark hOpens
  rw [List.length_append, h.length_take] at hAwaits
  rw [take_succ_eq hParen, hStart, hStands.take_eq]
  exact hAwaits

/-- Behind an operator that follows an operand an expression is due. -/
theorem Call.behind {op : Connective} (h : r.Call level opened place stop)
    (hOperand : r.Spells .operand level place next f) (hLt : next < stop)
    (hToken : r.tokens.toList[next]? = some token) (hOperator : token.kind = .connective op) :
    r.Call (level + 1) opened (next + 1) stop := by
  obtain ⟨tokens, deepest, hStands, rfl, hDeepest, hDerives⟩ := hOperand
  refine ⟨h.range.rest (by omega) hLt, ?_, h.ends⟩
  rw [take_succ_eq hToken, hStands.take_eq]
  exact h.awaits.operator op token hOperator hDerives hDeepest

/-- A closing parenthesis cannot stand behind an operand within the range: it would be the partner
of the innermost open one, and there the range ends. -/
theorem Call.not_closing (h : r.Call level opened place stop)
    (hOperand : r.Spells .operand level place next f) (hLt : next < stop)
    (hToken : r.tokens.toList[next]? = some token) (hClosing : token.kind = .closing) :
    opened = none := by
  cases opened with
  | none => rfl
  | some start =>
    obtain ⟨tokens, _, hStands, rfl, -, hDerives⟩ := hOperand
    obtain ⟨outer, paren, inner, hFront, hStart, hParen, hInner⟩ := h.awaits.exists_opening
    have hLength := h.length_take
    -- what stands up to the closing one ends with a pair
    have hAll : StandsAt r.tokens.toList 0 (outer ++ (paren :: (inner ++ tokens) ++ [token])) := by
      have hTake := take_succ_eq hToken
      rw [hStands.take_eq, hFront] at hTake
      rw [show outer ++ (paren :: (inner ++ tokens) ++ [token]) = _ by simpa using hTake.symm]
      exact List.take_prefix _ _
    obtain ⟨hOpen, hInside, hEnd, -⟩ := standsAt_pair.mp (standsAt_append.mp hAll).2
    rw [Nat.zero_add, ← hStart] at hOpen hInside hEnd
    have hMatched : Matched r.tokens.toList start _ := ⟨⟨paren, hOpen, hParen⟩,
      ⟨token, hEnd, hClosing⟩, inner ++ tokens, hInner.append hDerives.balanced, hInside, rfl⟩
    have hStop := hMatched.unique h.ends
    rw [hFront, List.length_append, List.length_cons] at hLength
    rw [List.length_append] at hStop
    omega

/-- What comes next at a place is not what is due there. -/
def StuckAt (r : Reader) (place : Nat) : Prop :=
  ∃ fits, Due (r.tokens.toList.take place) fits ∧
    ∀ token, r.tokens.toList[place]? = some token → ¬ fits token.kind

/-- Reading is stuck at a token that does not fit what is due. -/
theorem stuckAt_of_not_fits {fits : Kind → Prop} (hDue : Due (r.tokens.toList.take place) fits)
    (hToken : r.tokens.toList[place]? = some token) (hFits : ¬ fits token.kind) :
    r.StuckAt place := by
  refine ⟨fits, hDue, ?_⟩
  intro found hFound
  rw [hToken, Option.some.injEq] at hFound
  exact hFound ▸ hFits

/-- What is known when reading stops with an error. -/
def Blames (r : Reader) : Cause → Prop
  | .missingOperand offset => ∃ place, offset = r.offset place ∧ r.StuckAt place
  | .unexpected text offset | .missingOperator text offset => ∃ place token,
    r.tokens.toList[place]? = some token ∧ token.text = text ∧ token.offset = offset ∧
      r.StuckAt place
  | .tooDeep offset => ∃ place opened, offset = r.offset place ∧
    Awaits (maxLevel + 1) opened (r.tokens.toList.take place)
  | .unclosedParenthesis => ∃ place token fits, r.tokens.toList[place]? = some token ∧
    token.kind = .opening ∧ (∀ close, ¬ Matched r.tokens.toList place close) ∧
    Due (r.tokens.toList.take place) fits

/-- What the calls for deeper expressions are known to do when they stop with an error. -/
def Justifies (r : Reader) (level : Nat) (expr : Nat → Nat → Except Cause (Formula × Nat)) : Prop :=
  ∀ opened place stop cause, r.Call level opened place stop → expr stop place = .error cause →
    r.Blames cause

variable {expr : Nat → Nat → Except Cause (Formula × Nat)} {cause : Cause}

/-- Whether a negation is found, where the operand is due, and that no negation stands there unless
one was found. -/
theorem negation_eq (r : Reader) (stop place : Nat) :
    ∃ mark : Option Token, (∀ token ∈ mark, token.kind = .negation) ∧
      StandsAt r.tokens.toList place mark.toList ∧
      (r.negation stop place).2 = place + mark.toList.length ∧
      (mark = none → ∀ token, r.peek stop place = some token → token.kind ≠ .negation) := by
  unfold negation
  split
  next text offset hPeek =>
    obtain ⟨hLt, hToken⟩ := peek_eq_some_iff.mp hPeek
    have hStands := standsAt_cons.mpr ⟨hToken, standsAt_nil⟩
    refine ⟨some ⟨.negation, text, offset⟩, ?_, hStands, rfl, nofun⟩
    rintro _ ⟨⟩
    rfl
  -- without a mark nothing is passed over
  next hPeek =>
    refine ⟨none, nofun, standsAt_nil, rfl, ?_⟩
    rintro - ⟨kind, text, offset⟩ hToken rfl
    exact hPeek text offset hToken

/-- What an operand is refused for: that it is missing, that nothing of it can begin with the token,
that its parenthesis is not closed, or what is wrong inside. -/
theorem operand_justifies (hWell : r.WellFormed) (hExpr : r.Justifies (level + 1) expr)
    (hLevel : level ≤ maxLevel) (hCall : r.Call level opened place stop)
    (h : r.operand expr stop (r.negation stop place).2 = .error cause) : r.Blames cause := by
  obtain ⟨mark, hMark, hStands, hNext, hNone⟩ := r.negation_eq stop place
  obtain ⟨-, hStop, -⟩ := negation_sound hCall.range
  rw [hNext] at h hStop
  -- so much is known at the place where the operand is due
  have hDue : Due (r.tokens.toList.take (place + mark.toList.length)) (goesOnOperand mark) := by
    rw [hStands.take_eq]
    exact .operand mark hMark hLevel hCall.awaits
  unfold operand at h
  split at h
  next hPeek =>
    cases h
    -- the range ends here, and what ends a range is no operand
    have hEnd := (hCall.range.rest (Nat.le_add_right _ _) hStop).eq_stop_of_peek_eq_none hPeek
    refine ⟨stop, rfl, _, hEnd ▸ hDue, ?_⟩
    intro token hToken
    rw [hCall.ends.kind_eq hToken]
    exact id
  next => cases h
  next text offset hPeek =>
    obtain ⟨hLt, hToken⟩ := peek_eq_some_iff.mp hPeek
    split at h
    next close hPartner =>
      rw [hWell, getElem?_partners_eq_some_iff] at hPartner
      -- the error is one of the expression between the two
      rcases error_of_bind_eq_error h with hInner | ⟨answer, -, hAnswer⟩
      · exact hExpr _ _ _ _ (hCall.inside hMark hStands rfl hPartner) hInner
      · cases hAnswer
    next hPartner =>
      cases h
      refine ⟨_, _, _, hToken, rfl, ?_, hDue⟩
      intro close hMatched
      refine hPartner close ?_
      rwa [hWell, getElem?_partners_eq_some_iff]
  next kind text offset hName hOpening hPeek =>
    cases h
    obtain ⟨hLt, hToken⟩ := peek_eq_some_iff.mp hPeek
    refine ⟨_, _, hToken, rfl, rfl, stuckAt_of_not_fits hDue hToken ?_⟩
    intro hFits
    -- a second mark, a connective and a closing parenthesis are left
    cases kind with
    | name => exact hName rfl
    | opening => exact hOpening rfl
    | negation =>
      cases hFits
      exact hNone rfl _ hPeek rfl
    | connective op => exact hFits
    | closing => exact hFits

/-- What is refused behind an operand: a token that is no operator, or what comes after one. -/
theorem chain_justifies (hExpr : r.Justifies (level + 1) expr)
    (hCall : r.Call level opened place stop) (hOperand : r.Spells .operand level place next f)
    (h : r.chain expr f stop next = .error cause) : r.Blames cause := by
  unfold chain at h
  split at h
  next => cases h
  next op text offset hPeek =>
    obtain ⟨hLt, hToken⟩ := peek_eq_some_iff.mp hPeek
    rcases error_of_bind_eq_error h with hRest | ⟨answer, -, hAnswer⟩
    · exact hExpr _ _ _ _ (hCall.behind hOperand hLt hToken rfl) hRest
    · cases hAnswer
  next kind text offset hOperator hPeek =>
    cases h
    obtain ⟨hLt, hToken⟩ := peek_eq_some_iff.mp hPeek
    have hDue : Due (r.tokens.toList.take next) (goesOnChain opened) := by
      obtain ⟨tokens, deepest, hStands, rfl, hDeepest, hDerives⟩ := hOperand
      rw [hStands.take_eq]
      exact .operator hDerives hDeepest hCall.awaits
    refine ⟨_, _, hToken, rfl, rfl, stuckAt_of_not_fits hDue hToken ?_⟩
    intro hFits
    -- a closing parenthesis would fit if one were open, but then the range would end here
    cases kind with
    | connective op => exact hOperator op rfl
    | closing => exact hFits (hCall.not_closing hOperand hLt hToken rfl)
    | name => exact hFits
    | negation => exact hFits
    | opening => exact hFits

/-- **A reader stops only with a justified error**, whichever level it starts from. -/
theorem expr_justifies (hWell : r.WellFormed) (hLevels : level + levels = maxLevel + 1) :
    r.Justifies level (r.expr levels) := by
  induction levels generalizing level with
  | zero =>
    rintro opened place stop cause hCall ⟨⟩
    -- no level is left, so this one is beyond the limit
    obtain rfl : level = maxLevel + 1 := hLevels
    exact ⟨place, opened, rfl, hCall.awaits⟩
  | succ levels ih =>
    have hExpr : r.Justifies (level + 1) (r.expr levels) := ih (by omega)
    intro opened place stop cause hCall h
    rw [Reader.expr] at h
    rcases error_of_bind_eq_error h with hOperand | ⟨⟨first, middle⟩, hOperand, hChain⟩
    · exact operand_justifies hWell hExpr (by omega) hCall hOperand
    · -- the first operand is read, and what follows it is at fault
      obtain ⟨hPlace, hStop, hNegate⟩ := negation_sound hCall.range
      have hReads : r.ReadsRanges (level + 1) (r.expr levels) := expr_sound hWell (by omega)
      obtain ⟨-, -, hAtom⟩ := operand_sound hWell hReads (by omega)
        (hCall.range.rest hPlace hStop) hOperand
      exact chain_justifies hExpr hCall (hNegate _ _ _ hAtom) hChain

end Reader

/-! ## What an error says -/

/-- The first token that cannot be continued stands at the offset, or the text ends there. -/
structure BlockedAt (text : String) (offset : Nat) : Prop where
  begins : IsBeginning (before text offset)
  stands : offset = text.length ∨ ∃ token ∈ ofText text, token.offset = offset
  stops : ∀ token ∈ ofText text, token.offset = offset →
    ¬ IsBeginning (before text offset ++ [token])

/-- What an error says about its text. -/
def Explains (text : String) : Cause → Prop
  | .missingOperand offset => BlockedAt text offset
  | .unexpected found offset | .missingOperator found offset => BlockedAt text offset ∧
    ∃ token ∈ ofText text, token.offset = offset ∧ token.text = found
  | .tooDeep offset =>
    IsUnlimitedBeginning (before text offset) ∧ ¬ IsBeginning (before text offset)
  | .unclosedParenthesis => ∃ place opening, (ofText text).toList[place]? = some opening ∧
    opening.kind = .opening ∧ (∀ close, ¬ Matched (ofText text).toList place close) ∧
    IsBeginning ((ofText text).toList.take place)

theorem spellable_take (text : String) (place : Nat) :
    Spellable ((ofText text).toList.take place) := by
  intro token hMem
  exact spellable_ofText text token (List.mem_of_mem_take hMem)

/-- Where reading is stuck the text is blocked: it begins well, and no token there goes on. -/
theorem Reader.StuckAt.blockedAt {text : String} (h : (Reader.ofText text).StuckAt place) :
    BlockedAt text ((Reader.ofText text).offset place) := by
  obtain ⟨fits, hDue, hStuck⟩ := h
  refine ⟨?_, ?_, ?_⟩
  · rw [Reader.before_offset]
    exact hDue.isBeginning (spellable_take text place)
  -- the offset is that of a token, or of the end of the text
  · unfold Reader.offset
    split
    next token hToken => exact .inr ⟨token, Array.mem_of_getElem? hToken, rfl⟩
    next => exact .inl rfl
  · intro token hMem hOffset
    rw [Reader.before_offset]
    exact hDue.not_isBeginning (hStuck token (Reader.getElem?_of_offset_eq hMem hOffset))

/-- What reading blames explains the failure. -/
theorem Reader.Blames.explains {text : String} {cause : Cause}
    (h : (Reader.ofText text).Blames cause) : Explains text cause := by
  -- a cause with a token names the one where reading is stuck
  cases cause with
  | missingOperand offset =>
    obtain ⟨place, rfl, hStuck⟩ := h
    exact hStuck.blockedAt
  | unexpected found offset | missingOperator found offset =>
    obtain ⟨place, token, hToken, rfl, rfl, hStuck⟩ := h
    have hBlocked := hStuck.blockedAt
    rw [Reader.offset_eq hToken] at hBlocked
    exact ⟨hBlocked, token, Array.mem_toList_iff.mp (List.mem_of_getElem? hToken), rfl, rfl⟩
  | unclosedParenthesis =>
    obtain ⟨place, token, fits, hToken, hOpening, hUnmatched, hDue⟩ := h
    exact ⟨place, token, hToken, hOpening, hUnmatched, hDue.isBeginning (spellable_take text place)⟩
  | tooDeep offset =>
    obtain ⟨place, opened, rfl, hAwaits⟩ := h
    rw [← Reader.before_offset] at hAwaits
    exact ⟨hAwaits.isUnlimitedBeginning, hAwaits.not_isBeginning (Nat.lt_succ_self _)⟩

namespace Formula

/-- **An error points at the first token that cannot be continued**, whatever is wrong with the
text. -/
theorem parse_error_explained {text : String} {e : ParseError} (h : parse text = .error e) :
    Explains text e.cause := by
  have hJustified := Reader.expr_justifies (Reader.wellFormed_ofText text) (Nat.zero_add _)
  unfold parse at h
  dsimp only at h
  split at h
  next => cases h
  next cause hExpr =>
    cases h
    exact (hJustified _ _ _ _ (Reader.call_all _) hExpr).explains

/-- A side that is missing is noticed where the parenthesis closes. -/
theorem parse_error_explained_missing_side :
    let text := "(A & ) | B"
    let front : List Token := [⟨.opening, "(", 0⟩, ⟨.name, "A", 1⟩, ⟨.connective .and, "&", 3⟩]
    let closing : Token := ⟨.closing, ")", 5⟩
    parse text = .error ⟨text, .missingOperand 5⟩ ∧ closing ∈ Token.ofText text ∧
      IsBeginning front ∧ ¬ IsBeginning (front ++ [closing]) := by
  intro text front closing
  have hParse : parse text = .error ⟨text, .missingOperand 5⟩ := by decide
  have hBefore : before text 5 = front := by decide
  have hMem : closing ∈ Token.ofText text := Array.mem_toList_iff.mp (by decide)
  obtain ⟨hBegins, -, hStops⟩ := parse_error_explained hParse
  rw [hBefore] at hBegins hStops
  exact ⟨hParse, hMem, hBegins, hStops closing hMem rfl⟩

end Formula

end Propositional
