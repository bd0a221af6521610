import InterfaceFile.Text.Blank

/-!
# Pieces of text

Trimming, leading runs and the pieces between separators. The operations work on lists of
characters; the forms on `String` only convert.
-/

namespace InterfaceFile.Text

/-- The text without the blank characters at its two ends. -/
def trim (cs : List Char) : List Char :=
  ((cs.dropWhile isBlank).reverse.dropWhile isBlank).reverse

/-- The text without the run of `c` at its end. -/
def dropTrailing (c : Char) (cs : List Char) : List Char :=
  (cs.reverse.dropWhile (· = c)).reverse

/-- The text after as many copies of `word` as it starts with. -/
def dropCopies (word : List Char) (cs : List Char) : List Char :=
  if _h : word ≠ [] ∧ word <+: cs then dropCopies word (cs.drop word.length) else cs
termination_by cs.length
decreasing_by
  have := List.length_pos_iff.2 _h.1
  have := _h.2.length_le
  simp only [List.length_drop]
  omega

/-- Puts one character before text that is already cut at `separator`. -/
def consPiece (separator c : Char) : List (List Char) → List (List Char)
  | [] => [[c]]
  | piece :: pieces => if c = separator then [] :: piece :: pieces else (c :: piece) :: pieces

/-- The pieces of a text between its separators, so the empty text is one empty piece. -/
def split (separator : Char) (cs : List Char) : List (List Char) :=
  cs.foldr (consPiece separator) [[]]

/-- The lines of a text. -/
def lines (s : String) : List String :=
  (split '\n' s.toList).map String.ofList

/-- A text has one piece more than it has separators. -/
theorem length_split (separator : Char) (cs : List Char) :
    (split separator cs).length = cs.count separator + 1 := by
  have step : ∀ c pieces, pieces ≠ [] →
      (consPiece separator c pieces).length = pieces.length + if c = separator then 1 else 0 := by
    intro c pieces h
    cases pieces with
    | nil => exact absurd rfl h
    | cons piece pieces => by_cases hc : c = separator <;> simp [consPiece, hc]
  induction cs with
  | nil => rfl
  | cons c cs ih =>
    have nonempty : split separator cs ≠ [] := by
      intro h
      simp [h] at ih
    have unfolded : split separator (c :: cs) = consPiece separator c (split separator cs) := rfl
    rw [unfolded, step c _ nonempty, ih, List.count_cons]
    by_cases hc : c = separator <;> simp [hc]

/-- A symbol such as `:name` without its leading colons. -/
def symbolName (s : String) : String :=
  String.ofList (s.toList.dropWhile (· = ':'))

/-- The texts with `separator` between neighbours. -/
def join (separator : String) (texts : List String) : String :=
  separator.intercalate texts

/-- A run of `n` spaces. -/
def spaces (n : Nat) : String :=
  String.ofList (List.replicate n ' ')

end InterfaceFile.Text
