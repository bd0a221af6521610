import InterfaceFile.Proofs.Reader.Offsets

/-!
# Looking up lines

The line of a byte offset is found among the offsets at which lines start, by halving, and its column by
counting the characters from there on. At every offset that a reader comes to, the line exists, the slice
from its start is one of the text, and the place is the one that was counted along the way.
-/

namespace InterfaceFile

open String (utf8Len utf8Len_append utf8Len_toList)

/-! ## Partition points -/

/-- The index between `low` and `high` from which on `p` does not hold, if it holds up to there: looks in
    the middle and goes on in one half. -/
def partitionPoint (p : Nat → Bool) (xs : List Nat) (low high : Nat) : Nat :=
  if low < high then
    if xs[(low + high) / 2]?.any p then partitionPoint p xs ((low + high) / 2 + 1) high
    else partitionPoint p xs low ((low + high) / 2)
  else low
termination_by high - low

theorem partitionPoint_append {p : Nat → Bool} {xs ys : List Nat} (yes : ∀ x ∈ xs, p x = true)
    (no : ∀ y ∈ ys, p y = false) {low high : Nat} (below : low ≤ xs.length) (above : xs.length ≤ high)
    (bound : high ≤ (xs ++ ys).length) : partitionPoint p (xs ++ ys) low high = xs.length := by
  rw [List.length_append] at bound
  fun_induction partitionPoint p (xs ++ ys) low high with
  | case1 low high order holds ih =>
    refine ih ?_ above bound
    -- The middle cannot be one of `ys`.
    by_contra beyond
    have inside : (low + high) / 2 - xs.length < ys.length := by omega
    rw [List.getElem?_append_right (by omega), List.getElem?_eq_getElem inside, Option.any_some,
      no _ (List.getElem_mem inside)] at holds
    cases holds
  | case2 low high order fails ih =>
    refine ih below ?_ (by omega)
    by_contra beyond
    have inside : (low + high) / 2 < xs.length := by omega
    rw [List.getElem?_append_left inside, List.getElem?_eq_getElem inside, Option.any_some] at fails
    exact fails (yes _ (List.getElem_mem inside))
  | case3 low high order => omega

/-! ## Line starts -/

/-- The offsets after the line ends of a text that begins at an offset. -/
def startsFrom (offset : Nat) : List Char → List Nat
  | [] => []
  | c :: cs =>
    if c = '\n' then (offset + 1) :: startsFrom (offset + c.utf8Size) cs
    else startsFrom (offset + c.utf8Size) cs

/-- The offsets at which the lines of a text start. -/
def lineStarts (source : String) : List Nat :=
  0 :: startsFrom 0 source.toList

theorem startsFrom_append (offset : Nat) (front back : List Char) :
    startsFrom offset (front ++ back) =
      startsFrom offset front ++ startsFrom (offset + utf8Len front) back := by
  induction front generalizing offset with
  | nil => rfl
  | cons c front ih =>
    have size : offset + c.utf8Size + utf8Len front = offset + utf8Len (c :: front) := by
      rw [String.utf8Len_cons]
      omega
    rw [List.cons_append, startsFrom, startsFrom, ih, size]
    split <;> rfl

theorem mem_startsFrom {offset start : Nat} {cs : List Char} (h : start ∈ startsFrom offset cs) :
    offset < start ∧ start ≤ offset + utf8Len cs := by
  induction cs generalizing offset with
  | nil => cases h
  | cons c cs ih =>
    rw [startsFrom] at h
    rw [String.utf8Len_cons]
    have := c.utf8Size_pos
    split at h
    · rcases List.mem_cons.1 h with rfl | later
      · omega
      · have := ih later
        omega
    · have := ih h
      omega

theorem length_startsFrom (offset : Nat) (cs : List Char) :
    (startsFrom offset cs).length = cs.count '\n' := by
  induction cs generalizing offset with
  | nil => rfl
  | cons c cs ih =>
    rw [startsFrom, List.count_cons]
    split
    · next line => simp [line, ih]
    · next other => simp [other, ih]

/-- The last line starts after what comes before the characters without a line end. -/
theorem getLast?_starts (front : List Char) : (0 :: startsFrom 0 front).getLast? =
    some (utf8Len (front.reverse.dropWhile (· ≠ '\n')).reverse) := by
  induction front using List.reverseRecOn with
  | nil => rfl
  | append_singleton front c ih =>
    rw [startsFrom_append, ← List.cons_append, startsFrom, List.reverse_append, List.reverse_singleton,
      List.singleton_append, Nat.zero_add]
    by_cases line : c = '\n'
    · have size : c.utf8Size = 1 := by rw [line]; rfl
      rw [if_pos line, startsFrom, List.getLast?_concat, List.dropWhile_cons_of_neg (by simpa using line),
        List.reverse_cons, List.reverse_reverse, utf8Len_append, String.utf8Len_cons, size]
      rfl
    · rw [if_neg line, startsFrom, List.append_nil, ih, List.dropWhile_cons_of_pos (by simpa using line)]

/-! ## The place of an offset -/

/-- The place of a byte offset. There is none if no line starts before it or if the line cannot be
    cut off there. -/
def lineCol? (source : String) (offset : Nat) : Option Place :=
  let starts := lineStarts source
  match partitionPoint (· ≤ offset) starts 0 starts.length with
  | 0 => none
  | line + 1 => do
    let start ← starts[line]?
    let front ← (Span.mk start offset).slice? source
    return ⟨line + 1, front.toList.length⟩

/-- At the end of a beginning of the text the line is found, and the place is that of the beginning. -/
theorem lineCol?_of_append {source : String} {front back : List Char}
    (whole : source.toList = front ++ back) :
    lineCol? source (utf8Len front) = some (Place.afterText front) := by
  have starts : lineStarts source = (0 :: startsFrom 0 front) ++ startsFrom (utf8Len front) back := by
    rw [lineStarts, whole, startsFrom_append, Nat.zero_add, List.cons_append]
  have line : partitionPoint (· ≤ utf8Len front) (lineStarts source) 0 (lineStarts source).length =
      front.count '\n' + 1 := by
    rw [starts, partitionPoint_append _ _ (Nat.zero_le _) _ (Nat.le_refl _), List.length_cons,
      length_startsFrom]
    · intro start member
      rcases List.mem_cons.1 member with rfl | later
      · exact decide_eq_true (Nat.zero_le _)
      · have := mem_startsFrom later
        exact decide_eq_true (by omega)
    · intro start member
      have := mem_startsFrom member
      exact decide_eq_false (by omega)
    · rw [List.length_append]
      exact Nat.le_add_right _ _
  have last : (lineStarts source)[front.count '\n']? =
      some (utf8Len (front.reverse.dropWhile (· ≠ '\n')).reverse) := by
    rw [starts, List.getElem?_append_left (by simp [length_startsFrom]), ← getLast?_starts,
      List.getLast?_eq_getElem?, List.length_cons, length_startsFrom, Nat.add_sub_cancel]
  have split : front = (front.reverse.dropWhile (· ≠ '\n')).reverse ++
      (front.reverse.takeWhile (· ≠ '\n')).reverse := by
    rw [← List.reverse_append, List.takeWhile_append_dropWhile, List.reverse_reverse]
  have cut : (Span.mk (utf8Len (front.reverse.dropWhile (· ≠ '\n')).reverse) (utf8Len front)).slice?
      source = some (String.ofList (front.reverse.takeWhile (· ≠ '\n')).reverse) := by
    have pieces : source.toList = (front.reverse.dropWhile (· ≠ '\n')).reverse ++
        (front.reverse.takeWhile (· ≠ '\n')).reverse ++ back := by rw [← split, whole]
    have found := Span.slice?_of_append pieces
    rwa [← split] at found
  simp only [lineCol?, line, last, cut, Option.bind_eq_bind, Option.bind_some, Option.pure_def,
    String.toList_ofList, List.length_reverse, Place.afterText, Nat.add_comm 1]

/-- Where a reader comes to, the look-up gives the place that it has counted. -/
theorem Cursor.Reaches.lineCol? {file : Option String} {source : String} {c : Cursor}
    (h : (Cursor.ofText file source.toList).Reaches c) :
    lineCol? source c.pos.offset = some c.pos.place := by
  obtain ⟨front, whole, pos⟩ := h.front
  rw [pos, Position.offset_after, Nat.zero_add, lineCol?_of_append whole, Position.place_after_start]

end InterfaceFile
