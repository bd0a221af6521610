import InterfaceFile.Location

/-!
# Positions in the text that is read

Errors carry a `Span` of bytes; nodes carry lines and columns. A `Position` counts both.
-/

namespace InterfaceFile

/-- The bytes from `start` up to, and without, `stop`. -/
structure Span where
  start : Nat
  stop : Nat
  deriving DecidableEq, Repr, Inhabited

namespace Span

/-- No bytes, at a place where something is missing. -/
def point (offset : Nat) : Span :=
  ⟨offset, offset⟩

/-- The one byte of a bracket. -/
def delimiter (offset : Nat) : Span :=
  ⟨offset, offset + 1⟩

/-- The written form, such as `6..7`. -/
def describe (s : Span) : String :=
  toString s.start ++ ".." ++ toString s.stop

/-- The number of bytes; none if the span ends before it starts. -/
def length (s : Span) : Nat :=
  s.stop - s.start

/-- Splits a text after `n` bytes, if a character ends there. -/
def splitBytes? : Nat → List Char → Option (List Char × List Char)
  | 0, cs => some ([], cs)
  | _ + 1, [] => none
  | n + 1, c :: cs =>
    if c.utf8Size ≤ n + 1 then
      (splitBytes? (n + 1 - c.utf8Size) cs).map fun (front, back) => (c :: front, back)
    else none
termination_by _ cs => cs.length

/-- The text of a span. There is none if the span ends before it starts, reaches past the end of
    the text or cuts a character. -/
def slice? (s : Span) (text : String) : Option String :=
  if s.stop < s.start then none
  else do
    let (_, back) ← splitBytes? s.start text.toList
    let (middle, _) ← splitBytes? s.length back
    return String.ofList middle

end Span

/-- How far a text has been read. -/
structure Position where
  /-- The bytes read. -/
  offset : Nat := 0
  place : Place := ⟨1, 0⟩
  deriving DecidableEq, Repr, Inhabited

namespace Position

/-- The position after one more character. -/
def step (p : Position) (c : Char) : Position :=
  { offset := p.offset + c.utf8Size
    place := if c = '\n' then ⟨p.place.line + 1, 0⟩ else ⟨p.place.line, p.place.column + 1⟩ }

/-- The position after a text. -/
def after (p : Position) (cs : List Char) : Position :=
  cs.foldl step p

/-- The bytes between two positions. -/
def spanTo (p q : Position) : Span :=
  ⟨p.offset, q.offset⟩

@[simp]
theorem after_nil (p : Position) : p.after [] = p := rfl

@[simp]
theorem after_cons (p : Position) (c : Char) (cs : List Char) :
    p.after (c :: cs) = (p.step c).after cs := rfl

theorem after_append (p : Position) (cs ds : List Char) :
    p.after (cs ++ ds) = (p.after cs).after ds := by
  simp [after]

end Position

end InterfaceFile
