import Mathlib.Data.List.Infix
import Mathlib.Data.List.Permutation
import Propositional.Proofs.Shuffling

/-!
# Propositional — the variants that are found

Variants are looked for along one run of shuffles: the formula itself is shuffled again and
again, each time with the source that the last time left. Whether a shuffled formula is one of
the variants depends on the run alone. It is if it is new, written unlike the formula and unlike
everything that came up before it (`Formula.IsNew`).

The loop remembers the texts of the variants only. This is enough, because a text that was passed
over was known already; so the invariant is that what it knows are the texts that came up
(`Formula.Knows`). From it follows what a search comes to (`Formula.finds_gatherVariants`): the
first new formulas, as many as were asked for, and the source that the run has left there.
That much holds of a search that begins. It does not begin if room cannot be set aside for the
number asked for, and then there are no variants, although the run has some
(`Formula.exists_variants_refused`).

Main result: `Formula.variants_are_first_new`.
-/

namespace Propositional.Formula

variable {σ : Type} [Draws σ] {f : Formula} {s : σ} {start attempts count : Nat}
  {known : List String}

/-! ## A run of shuffles -/

/-- The source that is left when a formula was shuffled a number of times. -/
def sourceAfter (f : Formula) (s : σ) : Nat → σ
  | 0 => s
  | n + 1 => (f.shuffle {} (f.sourceAfter s n)).2

/-- What the formula is shuffled to at a place of the run. -/
def shuffledAt (f : Formula) (s : σ) (place : Nat) : Formula :=
  (f.shuffle {} (f.sourceAfter s place)).1

/-- What comes up at a place of the run is written unlike the formula and unlike everything that
came up before. -/
def IsNew (f : Formula) (s : σ) (place : Nat) : Prop :=
  (f.shuffledAt s place).render .unicode ≠ f.render .unicode ∧
    ∀ earlier < place,
      (f.shuffledAt s place).render .unicode ≠ (f.shuffledAt s earlier).render .unicode

instance (f : Formula) (s : σ) : DecidablePred (f.IsNew s) :=
  fun _ => inferInstanceAs (Decidable (_ ∧ ∀ earlier < _, _))

/-- The places of the run where something new comes up, among `length` places from `start` on. -/
def newPlaces (f : Formula) (s : σ) (start length : Nat) : List Nat :=
  (List.range' start length).filter fun place => f.IsNew s place

theorem equivalent_shuffledAt (f : Formula) (s : σ) (place : Nat) :
    (f.shuffledAt s place).Equivalent f :=
  (restates_shuffle {} f _).equivalent

/-- The new places of a longer stretch are those of its two parts. -/
theorem newPlaces_add (f : Formula) (s : σ) (start length more : Nat) :
    f.newPlaces s start (length + more) =
      f.newPlaces s start length ++ f.newPlaces s (start + length) more := by
  rw [newPlaces, ← List.range'_append_1, List.filter_append]
  rfl

theorem newPlaces_one_of_isNew (h : f.IsNew s start) : f.newPlaces s start 1 = [start] := by
  simp [newPlaces, h]

theorem newPlaces_one_of_not_isNew (h : ¬ f.IsNew s start) : f.newPlaces s start 1 = [] := by
  simp [newPlaces, h]

/-- A longer run finds more, behind what a shorter one finds. -/
theorem newPlaces_isPrefix (f : Formula) (s : σ) (start : Nat) {length length' : Nat}
    (h : length ≤ length') : f.newPlaces s start length <+: f.newPlaces s start length' := by
  obtain ⟨more, rfl⟩ := Nat.exists_eq_add_of_le h
  rw [newPlaces_add]
  exact List.prefix_append _ _

/-! ## The texts that are known -/

/-- The known texts are that of the formula and those that came up before a place of the run. -/
def Knows (f : Formula) (s : σ) (place : Nat) (known : List String) : Prop :=
  ∀ text, text ∈ known ↔ text = f.render .unicode ∨
    ∃ earlier < place, text = (f.shuffledAt s earlier).render .unicode

/-- Before any shuffle only the text of the formula itself is known. -/
theorem knows_zero (f : Formula) (s : σ) : f.Knows s 0 [f.render .unicode] := by
  intro text
  simp

/-- What is not known is new. -/
theorem Knows.isNew_iff (h : f.Knows s start known) :
    f.IsNew s start ↔ (f.shuffledAt s start).render .unicode ∉ known := by
  rw [h]
  simp only [IsNew, not_or, not_exists, not_and, ne_eq]

/-- What comes up is known from then on. -/
theorem Knows.add (h : f.Knows s start known) :
    f.Knows s (start + 1) ((f.shuffledAt s start).render .unicode :: known) := by
  intro text
  rw [List.mem_cons, h, Nat.exists_lt_succ_right]
  exact or_comm.trans or_assoc

/-- If it is known already, nothing needs to be remembered. -/
theorem Knows.skip (h : f.Knows s start known) (hOld : ¬ f.IsNew s start) :
    f.Knows s (start + 1) known := by
  intro text
  have hKnown : (f.shuffledAt s start).render .unicode ∈ known := by
    rwa [h.isNew_iff, not_not] at hOld
  -- adding a text that is known already makes no difference
  rw [← h.add, List.mem_cons]
  constructor
  · exact .inr
  · rintro (rfl | hText)
    · exact hKnown
    · exact hText

/-! ## A search -/

/-- What a search from a place of the run comes to: the first new formulas among those tried, up to
their number asked for; and the source of the place where it stopped, which is the first one where
enough were found, or the last. -/
structure Finds (f : Formula) (s : σ) (start attempts count : Nat) (result : List Formula × σ) :
    Prop where
  found : result.1 = ((f.newPlaces s start attempts).take count).map (f.shuffledAt s)
  stopped : ∃ n ≤ attempts, result.2 = f.sourceAfter s (start + n) ∧
    (∀ m < n, (f.newPlaces s start m).length < count) ∧
    (n < attempts → (f.newPlaces s start n).length = count)

/-- A search that need not or may not go on stops at once. -/
theorem finds_nothing (h : attempts = 0 ∨ count = 0) :
    f.Finds s start attempts count ([], f.sourceAfter s start) := by
  constructor
  · rcases h with rfl | rfl <;> simp [newPlaces]
  · refine ⟨0, Nat.zero_le _, rfl, nofun, ?_⟩
    intro hAttempts
    rcases h with rfl | rfl
    · cases hAttempts
    · rfl

/-- A search that goes on behind its first place finds what is new there, and then what the rest of
the search finds. -/
theorem Finds.step {result : List Formula × σ}
    (hCount : 0 < (f.newPlaces s start 1).length + count)
    (h : f.Finds s (start + 1) attempts count result) :
    f.Finds s start (1 + attempts) ((f.newPlaces s start 1).length + count)
      ((f.newPlaces s start 1).map (f.shuffledAt s) ++ result.1, result.2) := by
  obtain ⟨n, hLe, hSource, hBefore, hEnough⟩ := h.stopped
  constructor
  · rw [newPlaces_add, List.take_length_add_append, List.map_append, h.found]
  · refine ⟨1 + n, by omega, ?_, ?_, ?_⟩
    · rw [hSource, Nat.add_assoc]
    · intro m hm
      match m with
      | 0 => exact hCount
      | m + 1 =>
        -- before the search stopped, the rest of it had not found enough
        have hRest := hBefore m (by omega)
        rw [Nat.add_comm m 1, newPlaces_add, List.length_append]
        omega
    · intro hn
      rw [newPlaces_add, List.length_append, hEnough (by omega)]

/-- **A search finds what is new**, if it starts with the texts that are known there. -/
theorem finds_gatherVariants (h : f.Knows s start known) (attempts count : Nat) :
    f.Finds s start attempts count
      (f.gatherVariants attempts count known (f.sourceAfter s start)) := by
  induction attempts generalizing start count known with
  | zero => exact finds_nothing (.inl rfl)
  | succ attempts ih =>
    match count with
    | 0 => exact finds_nothing (.inr rfl)
    | count + 1 =>
      unfold gatherVariants
      -- the shuffle at hand is the one at this place of the run
      change f.Finds s start (attempts + 1) (count + 1)
        (if (f.shuffledAt s start).render .unicode ∈ known then _ else _)
      split
      next hKnown =>
        have hOld : ¬ f.IsNew s start := fun hNew => h.isNew_iff.mp hNew hKnown
        have hStep := (ih (h.skip hOld) (count + 1)).step (by omega)
        rwa [newPlaces_one_of_not_isNew hOld, List.length_nil, Nat.zero_add,
          Nat.add_comm 1 attempts] at hStep
      next hUnknown =>
        have hNew : f.IsNew s start := h.isNew_iff.mpr hUnknown
        have hFirst := newPlaces_one_of_isNew hNew
        have hCount : 0 < (f.newPlaces s start 1).length + count := by
          rw [hFirst, List.length_singleton]
          omega
        have hStep := (ih h.add count).step hCount
        rwa [hFirst, List.length_singleton, Nat.add_comm 1 count, Nat.add_comm 1 attempts] at hStep

/-! ## Variants -/

/-- Nothing is drawn and nothing found if room cannot be set aside. -/
theorem variants_of_lt (h : maxVariants < count) :
    f.variants count attempts s = .error .capacityOverflow := if_pos h

/-- Up to the limit there is an answer. -/
theorem variants_of_le (h : count ≤ maxVariants) :
    f.variants count attempts s =
      .ok (f.gatherVariants attempts count [f.render .unicode] s) :=
  if_neg (Nat.not_lt.mpr h)

/-- An answer is what a search from the start of the run comes to. -/
theorem finds_of_variants_eq_ok {result : List Formula × σ}
    (h : f.variants count attempts s = .ok result) : f.Finds s 0 attempts count result := by
  rcases Nat.lt_or_ge maxVariants count with hCount | hCount
  · rw [variants_of_lt hCount] at h
    cases h
  · rw [variants_of_le hCount, Except.ok.injEq] at h
    rw [← h]
    exact finds_gatherVariants (f.knows_zero s) attempts count

/-- **Variants are the first new formulas of the run**, if room can be set aside for as many as were
asked for, and else there is an error and no answer. As many as were asked for are found if the
attempts suffice, and else all that are new, in the order of the run. The source that is left is
that of the place where the search stopped: there were fewer before, so that nothing is drawn if
none is asked for, and if not all attempts were made, there are enough. A search for more in more
attempts begins with the same variants, and each variant is equivalent to the formula. -/
theorem variants_are_first_new (f : Formula) (count attempts : Nat) (s : σ) :
    (maxVariants < count → f.variants count attempts s = .error .capacityOverflow) ∧
    (count ≤ maxVariants → ∃ gs s', f.variants count attempts s = .ok (gs, s') ∧
      gs = ((f.newPlaces s 0 attempts).take count).map (f.shuffledAt s) ∧
      (∃ n ≤ attempts, s' = f.sourceAfter s n ∧
        (∀ m < n, (f.newPlaces s 0 m).length < count) ∧
        (n < attempts → (f.newPlaces s 0 n).length = count)) ∧
      (∀ count' attempts' gs' s'', count ≤ count' → attempts ≤ attempts' →
        f.variants count' attempts' s = .ok (gs', s'') → gs <+: gs') ∧
      ∀ g ∈ gs, ∀ v : Valuation, g.eval v = f.eval v) := by
  refine ⟨variants_of_lt, ?_⟩
  intro hCount
  obtain ⟨⟨gs, s'⟩, hVariants⟩ : ∃ result, f.variants count attempts s = .ok result :=
    ⟨_, variants_of_le hCount⟩
  have hFinds := finds_of_variants_eq_ok hVariants
  have hFound : gs = ((f.newPlaces s 0 attempts).take count).map (f.shuffledAt s) := hFinds.found
  obtain ⟨n, hLe, hSource, hStopped⟩ := hFinds.stopped
  rw [Nat.zero_add] at hSource
  -- what is left to show is read off what the search found
  refine ⟨gs, s', hVariants, hFound, ⟨n, hLe, hSource, hStopped⟩, ?_, ?_⟩
  · intro count' attempts' gs' s'' hMore hAttempts hVariants'
    have hFound' : gs' = ((f.newPlaces s 0 attempts').take count').map (f.shuffledAt s) :=
      (finds_of_variants_eq_ok hVariants').found
    rw [hFound, hFound']
    have hPlaces := newPlaces_isPrefix f s 0 hAttempts
    -- more places, and then more of them
    exact ((hPlaces.take count).trans (List.take_prefix_take_left hMore)).map _
  · intro g hMem
    rw [hFound] at hMem
    obtain ⟨place, -, rfl⟩ := List.mem_map.mp hMem
    exact f.equivalent_shuffledAt s place

/-- Words with which a shuffle of a conjunction changes nothing unless it draws the sixth one. -/
def sixthSwaps (drawn : Nat) : Source :=
  ⟨fun place => if place = 5 then 0 else 0xFFFFFFFFFFFFFFFF, drawn, 0⟩

/-- The first shuffle changes nothing and the second one swaps the sides. -/
theorem shuffle_sixthSwaps :
    (join .and (var "A") (var "B")).shuffle {} (sixthSwaps 0) =
      (join .and (var "A") (var "B"), sixthSwaps 3) ∧
    (join .and (var "A") (var "B")).shuffle {} (sixthSwaps 3) =
      (join .and (var "B") (var "A"), sixthSwaps 6) := by
  -- literals draw nothing, so the work at the root is all
  have hShuffle : ∀ a b drawn drawn',
      (join .and (var "A") (var "B")).shuffleRoot {} (sixthSwaps drawn) =
        (join .and (var a) (var b), sixthSwaps drawn') →
      (join .and (var "A") (var "B")).shuffle {} (sixthSwaps drawn) =
        (join .and (var a) (var b), sixthSwaps drawn') := by
    intro a b drawn drawn' hRoot
    rw [shuffle_binary hRoot]
    simp only [var, shuffle_literal]
    rfl
  exact ⟨hShuffle "A" "B" 0 3 (by cbv), hShuffle "B" "A" 3 6 (by cbv)⟩

/-- One variant is found in two shuffles, with six words drawn. The third attempt is not made. -/
theorem variants_are_first_new_swap :
    let f := join .and (var "A") (var "B")
    let g := join .and (var "B") (var "A")
    f.variants 1 3 (sixthSwaps 0) = .ok ([g], sixthSwaps 6) ∧
      (∀ gs s', f.variants 2 5 (sixthSwaps 0) = .ok (gs, s') → [g] <+: gs) ∧
      (∀ v : Valuation, g.eval v = f.eval v) ∧
      maxVariants < 0x4000000000000000 ∧
      f.variants 0x4000000000000000 3 (sixthSwaps 0) = .error .capacityOverflow := by
  intro f g
  have hOld : f.render .unicode ∈ [f.render .unicode] := List.mem_singleton_self _
  have hNew : g.render .unicode ∉ [f.render .unicode] := by decide
  -- the first shuffle leaves the formula as it was, the second swaps its sides
  have hVariants : f.variants 1 3 (sixthSwaps 0) = .ok ([g], sixthSwaps 6) := by
    rw [variants_of_le (by decide), gatherVariants, shuffle_sixthSwaps.1]
    dsimp only
    rw [if_pos hOld, gatherVariants, shuffle_sixthSwaps.2]
    dsimp only
    rw [if_neg hNew]
    rfl
  obtain ⟨gs, s', hAnswer, -, -, hMore, hEval⟩ :=
    (variants_are_first_new f 1 3 (sixthSwaps 0)).2 (by decide)
  obtain ⟨rfl, rfl⟩ := Prod.mk.inj (Except.ok.inj (hVariants.symm.trans hAnswer))
  exact ⟨hVariants, fun gs' s'' => hMore 2 5 gs' s'' (by decide) (by decide),
    hEval g (List.mem_singleton_self g), by decide,
    (variants_are_first_new f 0x4000000000000000 3 (sixthSwaps 0)).1 (by decide)⟩

/-- There may be a variant and no answer: two shuffles find one, but room for `2 ^ 62` cannot be set
aside. -/
theorem exists_variants_refused :
    let f := join .and (var "A") (var "B")
    let s := sixthSwaps 0
    f.variants 0x4000000000000000 2 s = .error .capacityOverflow ∧
      ((f.newPlaces s 0 2).take 0x4000000000000000).map (f.shuffledAt s) =
        [join .and (var "B") (var "A")] := by
  intro f s
  have hFirst : f.shuffledAt s 0 = f := congrArg Prod.fst shuffle_sixthSwaps.1
  have hSource : f.sourceAfter s 1 = sixthSwaps 3 := congrArg Prod.snd shuffle_sixthSwaps.1
  have hSecond : f.shuffledAt s 1 = join .and (var "B") (var "A") := by
    rw [shuffledAt, hSource]
    exact congrArg Prod.fst shuffle_sixthSwaps.2
  -- the first shuffle is written like the formula, and the second one is not
  have hOld : ¬ f.IsNew s 0 := fun hNew => hNew.1 (by rw [hFirst])
  have hNew : f.IsNew s 1 := by
    refine ⟨by rw [hSecond]; decide, ?_⟩
    intro earlier hEarlier
    obtain rfl : earlier = 0 := by omega
    rw [hFirst, hSecond]
    decide
  have hPlaces : f.newPlaces s 0 2 = [1] := by
    rw [f.newPlaces_add s 0 1 1, newPlaces_one_of_not_isNew hOld, Nat.zero_add,
      newPlaces_one_of_isNew hNew, List.nil_append]
  refine ⟨variants_of_lt (by decide), ?_⟩
  rw [hPlaces, ← hSecond]
  rfl

end Propositional.Formula
