/-!
# Propositional — ordered names

Variables are always listed in the order of their code points and without
repetition. `Names.ofList` brings any list of names into that order;
`Names.position?` finds a name in an ordered array by halving.

The two results that the rest of the library stands on are `ordered_ofList`
with `mem_ofList` (the list is strictly increasing and nothing is lost or
added) and `position?_eq_some_iff` (on an ordered array the search answers
exactly the place where the name stands).
-/

namespace Propositional.Names

/-! ## Ordering a list of names -/

/-- Drops each entry that repeats the one before it. -/
def dropRepeats : List String → List String
  | [] => []
  | [name] => [name]
  | name :: next :: rest =>
    if name = next then dropRepeats (next :: rest) else name :: dropRepeats (next :: rest)

/-- The names of a list in increasing order, each once. -/
def ofList (names : List String) : Array String :=
  (dropRepeats (names.mergeSort fun a b => decide (a ≤ b))).toArray

/-- Names in strictly increasing order. -/
def Ordered (names : Array String) : Prop :=
  names.toList.Pairwise (· < ·)

/-- Of two places the later one has the greater name. -/
theorem Ordered.lt {names : Array String} (hOrd : Ordered names) {i j : Nat} (hij : i < j)
    (hj : j < names.size) : names[i] < names[j] := by
  exact List.pairwise_iff_getElem.1 hOrd i j (by simp; omega) (by simpa using hj) hij

/-- What is dropped stands somewhere else too. -/
theorem mem_dropRepeats {name : String} {names : List String} :
    name ∈ dropRepeats names ↔ name ∈ names := by
  fun_induction dropRepeats names <;> simp_all

/-- In an increasing list every repetition stands beside the first occurrence. -/
theorem pairwise_dropRepeats {names : List String} (h : names.Pairwise (· ≤ ·)) :
    (dropRepeats names).Pairwise (· < ·) := by
  fun_induction dropRepeats names with
  | case1 => exact List.Pairwise.nil
  | case2 name => exact List.pairwise_singleton _ name
  | case3 name rest ih => exact ih (List.pairwise_cons.1 h).2
  | case4 name next rest hNe ih =>
    obtain ⟨hLe, hRest⟩ := List.pairwise_cons.1 h
    refine List.pairwise_cons.2 ⟨fun other hOther => ?_, ih hRest⟩
    -- Everything after `next` is at least `next`, which is above `name`.
    have hLt : name < next := by
      have := hLe next (by simp)
      grind
    rcases List.mem_cons.1 (mem_dropRepeats.1 hOther) with rfl | hMem
    · exact hLt
    · have := (List.pairwise_cons.1 hRest).1 other hMem
      grind

/-- Bringing names into order loses none and adds none. -/
theorem mem_ofList {name : String} {names : List String} :
    name ∈ ofList names ↔ name ∈ names := by
  simp [ofList, mem_dropRepeats, List.mem_mergeSort]

/-- Whatever the list was, its names come out in order, each once. -/
theorem ordered_ofList (names : List String) : Ordered (ofList names) := by
  refine pairwise_dropRepeats ?_
  -- the order of strings is transitive and total, which is all that sorting asks for
  refine (List.pairwise_mergeSort ?_ ?_ names).imp ?_
  · grind
  · grind
  · grind

/-! ## Finding a name -/

/-- The place of a name within the window from `lo` to before `hi`. -/
def search (names : Array String) (name : String) (lo hi : Nat) (h : hi ≤ names.size) :
    Option Nat :=
  if hLt : lo < hi then
    let mid := lo + (hi - lo) / 2
    have : mid < names.size := by omega
    if names[mid] = name then some mid
    else if names[mid] < name then search names name (mid + 1) hi h
    else search names name lo mid (by omega)
  else none
termination_by hi - lo

/-- The place of a name in an ordered array, if it stands there. -/
def position? (names : Array String) (name : String) : Option Nat :=
  search names name 0 names.size (Nat.le_refl _)

/-- What the search answers stands there, in whatever order the names are. -/
theorem search_sound {names : Array String} {name : String} {lo hi i : Nat}
    {h : hi ≤ names.size} (hi' : search names name lo hi h = some i) :
    ∃ hLt : i < names.size, names[i] = name := by
  fun_induction search names name lo hi h with
  | case1 lo hi h hLt mid hMid hEq => exact Option.some.inj hi' ▸ ⟨hMid, hEq⟩
  | case2 lo hi h hLt mid hMid hNe hLess ih => exact ih hi'
  | case3 lo hi h hLt mid hMid hNe hLess ih => exact ih hi'
  | case4 => cases hi'

/-- On ordered names the search misses nothing within its window. -/
theorem search_complete {names : Array String} (hOrd : Ordered names) {lo hi i : Nat}
    {h : hi ≤ names.size} (hLo : lo ≤ i) (hHi : i < hi) :
    search names (names[i]) lo hi h = some i := by
  have hSize : i < names.size := by omega
  generalize hName : names[i] = name
  fun_induction search names name lo hi h with
  | case1 lo hi h hLt mid hMid hEq =>
    -- Two places of an ordered array hold different names.
    rcases Nat.lt_trichotomy mid i with hLt' | rfl | hLt'
    · have := hOrd.lt hLt' hSize; grind
    · rfl
    · have := hOrd.lt hLt' hMid; grind
  -- the name in the middle is less, so the place is not before it
  | case2 lo hi h hLt mid hMid hNe hLess ih =>
    refine ih ?_ hHi
    rcases Nat.lt_trichotomy mid i with hLt' | rfl | hLt'
    · exact hLt'
    · exact absurd hName hNe
    · have := hOrd.lt hLt' hMid; grind
  -- the name in the middle is greater, so the place is before it
  | case3 lo hi h hLt mid hMid hNe hLess ih =>
    refine ih hLo ?_
    rcases Nat.lt_trichotomy mid i with hLt' | rfl | hLt'
    · have := hOrd.lt hLt' hSize; grind
    · exact absurd hName hNe
    · exact hLt'
  | case4 lo hi h hLt => omega

/-- On ordered names the search answers a place exactly if the name stands there. -/
theorem position?_eq_some_iff {names : Array String} (hOrd : Ordered names) {name : String}
    {i : Nat} : position? names name = some i ↔ ∃ h : i < names.size, names[i] = name := by
  constructor
  · exact search_sound
  · rintro ⟨h, rfl⟩
    exact search_complete hOrd (Nat.zero_le i) h

end Propositional.Names
