import Propositional.Text.Parenthesis

/-!
# Propositional — the partners are the standard matching

`Token.partners` is computed in one pass with a stack. The standard matching is
said without a pass: two parentheses belong together if what stands between them
is balanced (`Token.Matched`). The two agree on all token lists, also on those
with stray parentheses (`Token.getElem?_partners_eq_some_iff`).

For one direction the pass keeps an invariant: between one opening that waits and
the next everything is balanced (`Token.Waiting`), so a closing parenthesis ends
the wait of its partner. For the other, a balanced stretch leaves the stack as it
found it (`Token.matchFrom_balanced`), and what was entered for an opening that no
longer waits is not entered again.

That pairs are nested or disjoint follows (`Token.Matched.close_lt`): an opening
inside a balanced stretch has its partner there, and partners are unique.
-/

namespace Propositional.Token

variable {tokens part part' rest inner : List Token} {token : Token}
variable {place start close : Nat} {waiting : List Nat}

/-! ## Where tokens stand -/

/-- The tokens of `part` stand one after the other from a place on. -/
def StandsAt (tokens : List Token) (place : Nat) (part : List Token) : Prop :=
  part <+: tokens.drop place

theorem standsAt_nil : StandsAt tokens place [] := List.nil_prefix

/-- Tokens stand at a place if the first stands there and the others at the next place. -/
theorem standsAt_cons :
    StandsAt tokens place (token :: part) ↔
      tokens[place]? = some token ∧ StandsAt tokens (place + 1) part := by
  unfold StandsAt
  rw [← List.tail_drop, ← List.head?_drop]
  cases tokens.drop place with
  | nil => simp
  | cons head tail =>
    rw [List.cons_prefix_cons]
    simp [eq_comm]

/-- Of two parts in a row, the second stands where the first ends. -/
theorem standsAt_append :
    StandsAt tokens place (part ++ part') ↔
      StandsAt tokens place part ∧ StandsAt tokens (place + part.length) part' := by
  induction part generalizing place with
  | nil => simp [standsAt_nil]
  | cons token part ih =>
    rw [List.cons_append, standsAt_cons, standsAt_cons, ih, List.length_cons, and_assoc,
      Nat.add_right_comm, Nat.add_assoc]

/-- What stands where a pair of parentheses and something behind it stand. -/
theorem standsAt_pair {opening closing : Token} :
    StandsAt tokens place (opening :: inner ++ closing :: rest) ↔
      tokens[place]? = some opening ∧ StandsAt tokens (place + 1) inner ∧
        tokens[place + 1 + inner.length]? = some closing ∧
        StandsAt tokens (place + 1 + inner.length + 1) rest := by
  rw [List.cons_append, standsAt_cons, standsAt_append, standsAt_cons]

/-- All tokens stand from the start on. -/
theorem standsAt_zero (tokens : List Token) : StandsAt tokens 0 tokens := List.prefix_rfl

/-- A list of tokens that stands at the start and is as long as all of them is all of them. -/
theorem StandsAt.eq_of_length (h : StandsAt tokens 0 part) (hLength : part.length = tokens.length) :
    part = tokens :=
  List.IsPrefix.eq_of_length h hLength

/-! ## Pairs -/

/-- The parentheses at two places belong together: the first opens, the second closes, and what
stands between them is balanced. -/
structure Matched (tokens : List Token) (start close : Nat) : Prop where
  opening : ∃ token, tokens[start]? = some token ∧ token.kind = .opening
  closing : ∃ token, tokens[close]? = some token ∧ token.kind = .closing
  between : ∃ inner, Balanced inner ∧ StandsAt tokens (start + 1) inner ∧
    close = start + 1 + inner.length

theorem Matched.lt (h : Matched tokens start close) : start < close := by
  obtain ⟨inner, -, -, hClose⟩ := h.between
  omega

/-- Every opening within a balanced stretch has its partner within it. -/
theorem Balanced.exists_matched (h : Balanced part) (hStands : StandsAt tokens place part)
    (hPlace : place ≤ start) (hStart : start < place + part.length)
    (hOpening : ∃ token, tokens[start]? = some token ∧ token.kind = .opening) :
    ∃ close, close < place + part.length ∧ Matched tokens start close := by
  obtain ⟨found, hFound, hFoundKind⟩ := hOpening
  induction h generalizing place with
  | nil =>
    rw [List.length_nil] at hStart
    omega
  | other token hNotOpening _ _ ih =>
    obtain ⟨hToken, hRest⟩ := standsAt_cons.mp hStands
    rw [List.length_cons] at hStart ⊢
    -- the first token opens nothing, so the opening stands behind it
    rcases Nat.eq_or_lt_of_le hPlace with rfl | hLater
    · rw [hToken, Option.some.injEq] at hFound
      exact absurd (hFound ▸ hFoundKind) hNotOpening
    · obtain ⟨close, hClose, hMatched⟩ := ih hRest hLater (by omega)
      exact ⟨close, by omega, hMatched⟩
  | pair opening closing hOpens hCloses hInner _ ihInner ihRest =>
    obtain ⟨hOpen, hWithin, hEnd, hBehind⟩ := standsAt_pair.mp hStands
    simp only [List.length_append, List.length_cons] at hStart ⊢
    -- the opening is that of the pair, or stands between the two, or behind them
    rcases Nat.eq_or_lt_of_le hPlace with rfl | hLater
    · exact ⟨_, by omega, ⟨opening, hOpen, hOpens⟩, ⟨closing, hEnd, hCloses⟩, _, hInner, hWithin,
        rfl⟩
    · rcases Nat.lt_or_ge start (place + 1 + _) with hIn | hOut
      · obtain ⟨close, hClose, hMatched⟩ := ihInner hWithin hLater hIn
        exact ⟨close, by omega, hMatched⟩
      rcases Nat.eq_or_lt_of_le hOut with rfl | hOut
      · -- the closing parenthesis of the pair opens nothing
        rw [hEnd, Option.some.injEq] at hFound
        rw [← hFound, hCloses] at hFoundKind
        cases hFoundKind
      · obtain ⟨close, hClose, hMatched⟩ := ihRest hBehind hOut (by omega)
        exact ⟨close, by omega, hMatched⟩

/-! ## One token of the pass -/

variable {entries : Array (Option Nat)}

/-- The pass lets an opening parenthesis wait. -/
theorem matchFrom_opening (h : token.kind = .opening) :
    matchFrom (token :: rest) place waiting entries =
      matchFrom rest (place + 1) (place :: waiting) entries := by
  simp [matchFrom, h]

/-- The pass enters a closing parenthesis with the one that has waited for the shortest time. -/
theorem matchFrom_closing (h : token.kind = .closing) :
    matchFrom (token :: rest) place (start :: waiting) entries =
      matchFrom rest (place + 1) waiting (entries.setIfInBounds start (some place)) := by
  simp [matchFrom, h]

/-- A closing parenthesis for which nothing waits is passed over. -/
theorem matchFrom_stray (h : token.kind = .closing) :
    matchFrom (token :: rest) place [] entries = matchFrom rest (place + 1) [] entries := by
  simp [matchFrom, h]

theorem matchFrom_other (hOpening : token.kind ≠ .opening) (hClosing : token.kind ≠ .closing) :
    matchFrom (token :: rest) place waiting entries =
      matchFrom rest (place + 1) waiting entries := by
  simp [matchFrom, hClosing]

/-! ## What the pass enters is matched -/

/-- The openings that wait at a place, the innermost first. Between one and the next, and from the
innermost to the place, everything is balanced; before the outermost anything may stand. -/
inductive Waiting (tokens : List Token) : Nat → List Nat → Prop
  | none {place : Nat} : Waiting tokens place []
  | opening {start place : Nat} {waiting : List Nat} {inner : List Token}
    (hOpening : ∃ token, tokens[start]? = some token ∧ token.kind = .opening)
    (hInner : Balanced inner) (hStands : StandsAt tokens (start + 1) inner)
    (hPlace : place = start + 1 + inner.length) (h : Waiting tokens start waiting) :
    Waiting tokens place (start :: waiting)

/-- A balanced stretch changes nothing about what waits. -/
theorem Waiting.skip (h : Waiting tokens place waiting) (hPart : Balanced part)
    (hStands : StandsAt tokens place part) : Waiting tokens (place + part.length) waiting := by
  cases h with
  | none => exact .none
  | opening hOpening hInner hInnerStands hPlace h =>
    refine .opening hOpening (hInner.append hPart) ?_ ?_ h
    · rw [standsAt_append, ← hPlace]
      exact ⟨hInnerStands, hStands⟩
    · rw [List.length_append]
      omega

/-- What waits was opened before the place that has been reached. -/
theorem Waiting.lt (h : Waiting tokens place waiting) : ∀ start ∈ waiting, start < place := by
  induction h with
  | none => simp
  | opening _ _ _ hPlace _ ih =>
    intro start hMem
    rcases List.mem_cons.mp hMem with rfl | hMem
    · omega
    · have hBefore := ih start hMem
      omega

/-- A closing parenthesis is the partner of the innermost opening that waits. -/
theorem Waiting.matched (h : Waiting tokens place (start :: waiting))
    (hToken : tokens[place]? = some token) (hClosing : token.kind = .closing) :
    Matched tokens start place ∧ Waiting tokens (place + 1) waiting := by
  cases h with
  | @opening _ _ _ inner hOpening hInner hStands hPlace h =>
    refine ⟨⟨hOpening, ⟨token, hToken, hClosing⟩, inner, hInner, hStands, hPlace⟩, ?_⟩
    obtain ⟨opening, hOpen, hOpens⟩ := hOpening
    have hPair : StandsAt tokens start (opening :: inner ++ [token]) :=
      standsAt_pair.mpr ⟨hOpen, hStands, hPlace ▸ hToken, standsAt_nil⟩
    -- the pair is complete, and a balanced stretch for the openings further out
    have hSkip := h.skip (.pair opening token hOpens hClosing hInner .nil) hPair
    simp only [List.length_append, List.length_cons, List.length_nil] at hSkip
    rwa [show place + 1 = start + (inner.length + 1 + (0 + 1)) by omega]

/-- What one token does: an opening waits from now on, a closing parenthesis ends a wait, and what
is entered is a pair. -/
theorem Waiting.step (h : Waiting tokens place waiting) (hToken : tokens[place]? = some token)
    (entries : Array (Option Nat)) :
    ∃ waiting' entries', Waiting tokens (place + 1) waiting' ∧ entries'.size = entries.size ∧
      (∀ start close, entries'[start]? = some (some close) →
        entries[start]? = some (some close) ∨ Matched tokens start close) ∧
      ∀ rest, matchFrom (token :: rest) place waiting entries =
        matchFrom rest (place + 1) waiting' entries' := by
  by_cases hOpening : token.kind = .opening
  · exact ⟨place :: waiting, entries,
      .opening ⟨token, hToken, hOpening⟩ .nil standsAt_nil rfl h, rfl, fun _ _ => .inl,
      fun _ => matchFrom_opening hOpening⟩
  by_cases hClosing : token.kind = .closing
  · cases waiting with
    | nil => exact ⟨[], entries, .none, rfl, fun _ _ => .inl, fun _ => matchFrom_stray hClosing⟩
    | cons first waiting =>
      obtain ⟨hMatched, hWaiting⟩ := h.matched hToken hClosing
      refine ⟨waiting, _, hWaiting, Array.size_setIfInBounds, ?_,
        fun _ => matchFrom_closing hClosing⟩
      intro start close hEntry
      -- an entry is the one just made, or it was there before
      rw [Array.getElem?_setIfInBounds] at hEntry
      split at hEntry
      next hFirst =>
        subst hFirst
        split at hEntry
        · rw [Option.some.injEq, Option.some.injEq] at hEntry
          exact .inr (hEntry ▸ hMatched)
        · cases hEntry
      next => exact .inl hEntry
  · have hSkip := h.skip (.other token hOpening hClosing .nil)
      (standsAt_cons.mpr ⟨hToken, standsAt_nil⟩)
    exact ⟨waiting, entries, hSkip, rfl, fun _ _ => .inl,
      fun _ => matchFrom_other hOpening hClosing⟩

/-- The pass over some tokens, whatever comes behind them: it enters only pairs, and what waits then
are openings. -/
theorem Waiting.run {front : List Token} (h : Waiting tokens place waiting)
    (hFront : StandsAt tokens place front) (entries : Array (Option Nat)) :
    ∃ waiting' entries', Waiting tokens (place + front.length) waiting' ∧
      entries'.size = entries.size ∧
      (∀ start close, entries'[start]? = some (some close) →
        entries[start]? = some (some close) ∨ Matched tokens start close) ∧
      ∀ rest, matchFrom (front ++ rest) place waiting entries =
        matchFrom rest (place + front.length) waiting' entries' := by
  -- the invariant goes from token to token: every entry is old or that of two partners
  induction front generalizing place waiting entries with
  | nil => exact ⟨waiting, entries, h, rfl, fun _ _ => .inl, fun _ => rfl⟩
  | cons token front ih =>
    obtain ⟨hToken, hFront⟩ := standsAt_cons.mp hFront
    obtain ⟨waiting₁, entries₁, hWaiting₁, hSize₁, hEntries₁, hMatch₁⟩ := h.step hToken entries
    obtain ⟨waiting₂, entries₂, hWaiting₂, hSize₂, hEntries₂, hMatch₂⟩ :=
      ih hWaiting₁ hFront entries₁
    have hPlace : place + (token :: front).length = place + 1 + front.length := by
      rw [List.length_cons]
      omega
    rw [hPlace]
    refine ⟨waiting₂, entries₂, hWaiting₂, hSize₂.trans hSize₁, ?_, ?_⟩
    · intro start close hEntry
      rcases hEntries₂ start close hEntry with hBefore | hMatched
      · exact hEntries₁ start close hBefore
      · exact .inr hMatched
    · intro rest
      rw [List.cons_append, hMatch₁, hMatch₂]

/-! ## What is matched is entered -/

/-- A balanced stretch leaves the openings that wait as they were. -/
theorem matchFrom_balanced (h : Balanced inner) (rest : List Token) (place : Nat)
    (waiting : List Nat) (entries : Array (Option Nat)) :
    ∃ entries', entries'.size = entries.size ∧
      matchFrom (inner ++ rest) place waiting entries =
        matchFrom rest (place + inner.length) waiting entries' := by
  induction h generalizing rest place waiting entries with
  | nil => exact ⟨entries, rfl, rfl⟩
  | other token hOpening hClosing _ ih =>
    obtain ⟨entries', hSize, hMatch⟩ := ih rest (place + 1) waiting entries
    refine ⟨entries', hSize, ?_⟩
    rw [List.cons_append, matchFrom_other hOpening hClosing, hMatch, List.length_cons,
      Nat.add_right_comm, Nat.add_assoc]
  -- the closing parenthesis meets its own opening one, as what is between leaves nothing waiting
  | @pair inner behind opening closing hOpens hCloses _ _ ihInner ihBehind =>
    obtain ⟨entries₁, hSize₁, hMatch₁⟩ :=
      ihInner (closing :: (behind ++ rest)) (place + 1) (place :: waiting) entries
    obtain ⟨entries₂, hSize₂, hMatch₂⟩ := ihBehind rest (place + 1 + inner.length + 1) waiting
      (entries₁.setIfInBounds place (some (place + 1 + inner.length)))
    refine ⟨entries₂, by rw [hSize₂, Array.size_setIfInBounds, hSize₁], ?_⟩
    rw [List.append_assoc, List.cons_append, List.cons_append, matchFrom_opening hOpens, hMatch₁,
      matchFrom_closing hCloses, hMatch₂]
    congr 1
    simp only [List.length_append, List.length_cons]
    omega

/-- What was entered for an opening that does not wait stays. -/
theorem getElem?_matchFrom (hPlace : start < place) (hWaiting : start ∉ waiting) :
    (matchFrom rest place waiting entries)[start]? = entries[start]? := by
  induction rest generalizing place waiting entries with
  | nil => rfl
  | cons token rest ih =>
    have hNext : start < place + 1 := Nat.lt_succ_of_lt hPlace
    by_cases hOpening : token.kind = .opening
    · rw [matchFrom_opening hOpening]
      refine ih hNext ?_
      rw [List.mem_cons, not_or]
      exact ⟨Nat.ne_of_lt hPlace, hWaiting⟩
    by_cases hClosing : token.kind = .closing
    -- only a waiting parenthesis gets an entry, and this one does not wait
    · cases waiting with
      | nil =>
        rw [matchFrom_stray hClosing]
        exact ih hNext hWaiting
      | cons first waiting =>
        rw [List.mem_cons, not_or] at hWaiting
        rw [matchFrom_closing hClosing, ih hNext hWaiting.2,
          Array.getElem?_setIfInBounds_ne (Ne.symm hWaiting.1)]
    · rw [matchFrom_other hOpening hClosing]
      exact ih hNext hWaiting

/-- The pass enters the partner of an opening when it is over the pair, and the entry stays. -/
theorem getElem?_matchFrom_pair {opening closing : Token} (hOpens : opening.kind = .opening)
    (hCloses : closing.kind = .closing) (hInner : Balanced inner)
    (hWaiting : ∀ other ∈ waiting, other < start) (hSize : start < entries.size) :
    (matchFrom (opening :: inner ++ closing :: rest) start waiting entries)[start]? =
      some (some (start + 1 + inner.length)) := by
  obtain ⟨entries', hSize', hMatch⟩ := matchFrom_balanced hInner (closing :: rest) (start + 1)
    (start :: waiting) entries
  rw [List.cons_append, matchFrom_opening hOpens, hMatch, matchFrom_closing hCloses]
  -- behind the pair the opening waits no more
  have hNotWaiting : start ∉ waiting := fun hMem => Nat.lt_irrefl _ (hWaiting start hMem)
  rw [getElem?_matchFrom (by omega) hNotWaiting, Array.getElem?_setIfInBounds_self_of_lt]
  rwa [hSize']

/-! ## The matching -/

/-- **The pass finds the standard matching**, whatever the tokens are. -/
theorem getElem?_partners_eq_some_iff {tokens : Array Token} :
    (partners tokens)[start]? = some (some close) ↔ Matched tokens.toList start close := by
  constructor
  · intro h
    obtain ⟨waiting, entries, -, -, hEntries, hMatch⟩ := Waiting.none.run
      (standsAt_zero tokens.toList) (Array.replicate tokens.size none)
    rw [partners, ← List.append_nil tokens.toList, hMatch] at h
    rcases hEntries start close h with hBefore | hMatched
    · -- at first nothing is entered
      simp [Array.getElem?_replicate] at hBefore
    · exact hMatched
  · intro h
    obtain ⟨opening, hOpen, hOpens⟩ := h.opening
    obtain ⟨closing, hEnd, hCloses⟩ := h.closing
    obtain ⟨inner, hInner, hStands, rfl⟩ := h.between
    have hPair : StandsAt tokens.toList start (opening :: inner ++ [closing]) :=
      standsAt_pair.mpr ⟨hOpen, hStands, hEnd, standsAt_nil⟩
    obtain ⟨back, hBack⟩ := hPair
    rw [List.append_assoc, List.singleton_append] at hBack
    have hLength : start < tokens.toList.length := (List.getElem?_eq_some_iff.mp hOpen).1
    have hFront : (tokens.toList.take start).length = start := by
      rw [List.length_take]
      omega
    have hTake : StandsAt tokens.toList 0 (tokens.toList.take start) := List.take_prefix _ _
    -- what waits before the pair stands before it
    obtain ⟨waiting, entries, hWaiting, hSize, -, hMatch⟩ := Waiting.none.run hTake
      (Array.replicate tokens.size none)
    rw [hFront, Nat.zero_add] at hMatch hWaiting
    rw [partners, ← List.take_append_drop start tokens.toList, hMatch, ← hBack]
    apply getElem?_matchFrom_pair hOpens hCloses hInner hWaiting.lt
    rw [hSize, Array.size_replicate]
    simpa using hLength

/-- An opening has one partner. -/
theorem Matched.unique {close' : Nat} (h : Matched tokens start close)
    (h' : Matched tokens start close') : close = close' := by
  have hEntry : (Token.partners tokens.toArray)[start]? = some (some close) :=
    getElem?_partners_eq_some_iff.mpr h
  rw [getElem?_partners_eq_some_iff.mpr h', Option.some.injEq, Option.some.injEq] at hEntry
  exact hEntry.symm

/-- A pair that opens within another closes within it. -/
theorem Matched.close_lt {start' close' : Nat} (h : Matched tokens start close)
    (h' : Matched tokens start' close') (hAfter : start < start') (hBefore : start' < close) :
    close' < close := by
  obtain ⟨inner, hInner, hStands, rfl⟩ := h.between
  obtain ⟨found, hFound, hMatched⟩ := hInner.exists_matched hStands hAfter hBefore h'.opening
  rwa [h'.unique hMatched]

end Propositional.Token
