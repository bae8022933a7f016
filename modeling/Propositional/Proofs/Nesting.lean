import Propositional.Proofs.Matching

/-!
# Propositional — pairs of parentheses

What the standard matching says of all pairs together, and of the parentheses that belong to
none. Of two pairs one lies within the other or behind it, and no closing parenthesis belongs
to two openings; both follow from what is known of a single pair
(`Token.Matched.nested_or_apart`, `Token.Matched.start_unique`).

A closing parenthesis that is nobody's partner leaves no trace. The pass reaches it when no
opening waits, so it goes on as it does at a token that is no parenthesis, and with such a
token in its place the pass enters the same partners (`Token.partners_setIfInBounds_stray`).

Main result: `Token.partners_standard_matching`.
-/

namespace Propositional.Token

variable {tokens : List Token} {start close start' close' : Nat}

/-! ## Two pairs -/

/-- A pair that opens behind the opening of another lies behind it or within it. -/
theorem Matched.nested_or_apart (h : Matched tokens start close)
    (h' : Matched tokens start' close') (hAfter : start < start') :
    close < start' ∨ close' < close := by
  rcases Nat.lt_trichotomy close start' with hApart | rfl | hWithin
  · exact .inl hApart
  · -- no token both closes and opens
    obtain ⟨closing, hClosing, hCloses⟩ := h.closing
    obtain ⟨opening, hOpening, hOpens⟩ := h'.opening
    rw [hClosing, Option.some.injEq] at hOpening
    rw [hOpening, hOpens] at hCloses
    cases hCloses
  · exact .inr (h.close_lt h' hAfter hWithin)

/-- A closing parenthesis belongs to one opening. -/
theorem Matched.start_unique (h : Matched tokens start close) (h' : Matched tokens start' close) :
    start = start' := by
  -- the later opening would have to close before itself
  rcases Nat.lt_trichotomy start start' with hAfter | hSame | hBefore
  · exact absurd (h.close_lt h' hAfter h'.lt) (Nat.lt_irrefl close)
  · exact hSame
  · exact absurd (h'.close_lt h hBefore h.lt) (Nat.lt_irrefl close)

/-! ## Parentheses without a partner -/

/-- Without a partner the entry of a token stays empty. -/
theorem getElem?_partners_eq_some_none {tokens : Array Token} (hSize : start < tokens.size)
    (h : ∀ close, ¬ Matched tokens.toList start close) :
    (partners tokens)[start]? = some none := by
  have hEntry : start < (partners tokens).size := by rwa [size_partners]
  rw [Array.getElem?_eq_getElem hEntry, Option.some.injEq, Option.eq_none_iff_forall_ne_some]
  intro close hSome
  refine h close (getElem?_partners_eq_some_iff.mp ?_)
  rw [Array.getElem?_eq_getElem hEntry, hSome]

/-- Nothing waits when the pass comes to a closing parenthesis that is nobody's partner. -/
theorem Waiting.eq_nil_of_stray {place : Nat} {waiting : List Nat} {stray : Token}
    (h : Waiting tokens place waiting) (hToken : tokens[place]? = some stray)
    (hCloses : stray.kind = .closing) (hStray : ∀ start, ¬ Matched tokens start place) :
    waiting = [] := by
  cases waiting with
  | nil => rfl
  | cons first waiting => exact absurd (h.matched hToken hCloses).1 (hStray first)

/-- A closing parenthesis that is nobody's partner might as well be no parenthesis. -/
theorem partners_setIfInBounds_stray {tokens : Array Token} {place : Nat} {stray other : Token}
    (hToken : tokens.toList[place]? = some stray) (hCloses : stray.kind = .closing)
    (hStray : ∀ start, ¬ Matched tokens.toList start place)
    (hOpening : other.kind ≠ .opening) (hClosing : other.kind ≠ .closing) :
    partners (tokens.setIfInBounds place other) = partners tokens := by
  obtain ⟨hPlace, hGet⟩ := List.getElem?_eq_some_iff.mp hToken
  have hTake : StandsAt tokens.toList 0 (tokens.toList.take place) := List.take_prefix _ _
  obtain ⟨waiting, entries, hWaiting, -, -, hMatch⟩ := Waiting.none.run hTake
    (Array.replicate tokens.size none)
  have hLength : 0 + (tokens.toList.take place).length = place := by
    rw [List.length_take]
    omega
  rw [hLength] at hWaiting hMatch
  obtain rfl := hWaiting.eq_nil_of_stray hToken hCloses hStray
  have hList : tokens.toList =
      tokens.toList.take place ++ stray :: tokens.toList.drop (place + 1) := by
    rw [← hGet, ← List.drop_eq_getElem_cons hPlace, List.take_append_drop]
  have hSet : (tokens.setIfInBounds place other).toList =
      tokens.toList.take place ++ other :: tokens.toList.drop (place + 1) := by
    rw [Array.toList_setIfInBounds, List.set_eq_take_append_cons_drop, if_pos hPlace]
  -- behind the place the two passes are the same
  calc partners (tokens.setIfInBounds place other)
      = matchFrom (tokens.toList.drop (place + 1)) (place + 1) [] entries := by
        rw [partners, hSet, Array.size_setIfInBounds, hMatch, matchFrom_other hOpening hClosing]
    _ = partners tokens := by
        rw [← matchFrom_stray hCloses, ← hMatch, ← hList, partners]

/-! ## The matching -/

/-- **The partners are the standard matching.** There is an entry for every token. It names a place
exactly if an opening parenthesis stands at the entry, a closing one at the place, and what is
between them is balanced; every other entry is empty. A closing parenthesis that is nobody's partner
leaves the other pairs as they are. Two pairs are nested or apart, and no closing parenthesis is the
partner of two openings. -/
theorem partners_standard_matching (tokens : Array Token) :
    (partners tokens).size = tokens.size ∧
    (∀ start close, (partners tokens)[start]? = some (some close) ↔
      Matched tokens.toList start close) ∧
    (∀ start < tokens.size, (∀ close, ¬ Matched tokens.toList start close) →
      (partners tokens)[start]? = some none) ∧
    (∀ place stray other, tokens.toList[place]? = some stray → stray.kind = .closing →
      (∀ start, ¬ Matched tokens.toList start place) →
      other.kind ≠ .opening → other.kind ≠ .closing →
      partners (tokens.setIfInBounds place other) = partners tokens) ∧
    (∀ start close start' close', Matched tokens.toList start close →
      Matched tokens.toList start' close' → start < start' → close < start' ∨ close' < close) ∧
    (∀ start start' close, Matched tokens.toList start close →
      Matched tokens.toList start' close → start = start') :=
  ⟨size_partners tokens, fun _ _ => getElem?_partners_eq_some_iff,
    fun _ hSize h => getElem?_partners_eq_some_none hSize h,
    fun _ _ _ hToken hCloses hStray hOpening hClosing =>
      partners_setIfInBounds_stray hToken hCloses hStray hOpening hClosing,
    fun _ _ _ _ h h' hAfter => h.nested_or_apart h' hAfter,
    fun _ _ _ h h' => h.start_unique h'⟩

/-- A stray parenthesis before, an opening without partner, and a pair within it. -/
example : partners (ofText ")((A)") = #[none, none, some 4, none, none] := by decide

end Propositional.Token
