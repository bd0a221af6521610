import InterfaceFile.Reader.Word

/-!
# Raw text

Types, values and arguments are taken over as they are written, up to a character that stops them.
Inside brackets and string literals nothing stops them. Brackets are counted and need not match in
kind; a closing bracket that closes nothing also stops the text.
-/

namespace InterfaceFile

/-- Does the character open a bracket? -/
def isOpener (c : Char) : Bool :=
  c = '(' || c = '[' || c = '{'

/-- Does the character close a bracket? -/
def isCloser (c : Char) : Bool :=
  c = ')' || c = ']' || c = '}'

/-- Does the character begin a string literal? -/
def isQuote (c : Char) : Bool :=
  c = '"' || c = '\''

/-- A bracket that is still open. -/
structure OpenBracket where
  bracket : Char
  offset : Nat
  deriving DecidableEq, Repr

/-- A string literal that is still open. -/
structure OpenLiteral where
  quote : Char
  offset : Nat
  /-- Was the last character an escaping backslash? -/
  escaped : Bool := false
  deriving DecidableEq, Repr

/-- What is open inside a raw text. -/
structure Nesting where
  /-- The open brackets, innermost first. -/
  brackets : List OpenBracket := []
  literal : Option OpenLiteral := none
  deriving DecidableEq, Repr

namespace Nesting

/-- What is open after one more character, which stands at `offset`. -/
def next (n : Nesting) (offset : Nat) (c : Char) : Nesting :=
  match n.literal with
  | some l =>
    if l.escaped then { n with literal := some { l with escaped := false } }
    else if c = '\\' then { n with literal := some { l with escaped := true } }
    else if c = l.quote then { n with literal := none }
    else n
  | none =>
    if isOpener c then { n with brackets := ⟨c, offset⟩ :: n.brackets }
    else if isCloser c then { n with brackets := n.brackets.tail }
    else if isQuote c then { n with literal := some { quote := c, offset } }
    else n

/-- Does the text end before the character? -/
def stopsAt (n : Nesting) (stop : Char → Bool) (c : Char) : Bool :=
  n.literal.isNone && n.brackets.isEmpty && (stop c || isCloser c)

/-- What is wrong if the input ends here: a literal first, then the innermost bracket. -/
def openError? (n : Nesting) (stop : Nat) : Option ReadError :=
  match n.literal, n.brackets with
  | some l, _ => some ⟨.unterminatedString, ⟨l.offset, stop⟩⟩
  | none, b :: _ => some ⟨.unclosed b.bracket, .delimiter b.offset⟩
  | none, [] => none

end Nesting

/-- Goes through a text up to the character that stops it. `taken` is what has been taken, latest
    character first. The result is all that was taken, the rest and the position of the rest. -/
def takeRaw (stop : Char → Bool) :
    Nesting → List Char → Position → List Char → Except ReadError (List Char × List Char × Position)
  | n, taken, pos, [] => match n.openError? pos.offset with
    | some e => .error e
    | none => .ok (taken.reverse, [], pos)
  | n, taken, pos, c :: rest =>
    if n.stopsAt stop c then .ok (taken.reverse, c :: rest, pos)
    else takeRaw stop (n.next pos.offset c) (c :: taken) (pos.step c) rest

/-- What is taken and the rest make up the text, and the position moves over what is taken. -/
theorem takeRaw_split {stop : Char → Bool} {n : Nesting} {taken text read rest : List Char}
    {pos pos' : Position} (h : takeRaw stop n taken pos text = .ok (read, rest, pos')) :
    ∃ more, read = taken.reverse ++ more ∧ text = more ++ rest ∧ pos' = pos.after more := by
  induction text generalizing n taken pos with
  | nil =>
    unfold takeRaw at h
    split at h
    · cases h
    · cases h
      exact ⟨[], by simp⟩
  | cons c text ih =>
    unfold takeRaw at h
    split at h
    · cases h
      exact ⟨[], by simp⟩
    · obtain ⟨more, hread, htext, hpos⟩ := ih h
      refine ⟨c :: more, ?_, ?_, ?_⟩
      · simp [hread]
      · simp [htext]
      · simp [hpos]

namespace Reader

/-- Takes a raw text, trimmed of white space. -/
def rawText (stop : Char → Bool) : Reader String :=
  fun c => match takeRaw stop {} [] c.pos c.rest with
    | .error e => .error e
    | .ok (read, rest, _) => .ok (String.ofList (Text.trim read), c.moveOver read rest)

/-- Takes a raw text that must not be empty. -/
def someText (stop : Char → Bool) (expected : Expected) : Reader String := do
  let text ← rawText stop
  if text = "" then unexpected expected else return text

theorem moves_rawText (stop : Char → Bool) : Moves (· ≠ "") (rawText stop) := by
  intro c a d run
  unfold rawText at run
  split at run
  · cases run
  · rename_i read rest pos taken
    cases run
    obtain ⟨more, hread, htext, -⟩ := takeRaw_split taken
    have same : read = more := by simpa using hread
    subst same
    refine ⟨Cursor.reaches_moveOver htext, fun nonempty => ?_⟩
    have positive : read ≠ [] := by
      intro h
      subst h
      exact nonempty rfl
    have := List.length_pos_iff.2 positive
    simp only [Cursor.moveOver, htext, List.length_append]
    omega

theorem advances_someText (stop : Char → Bool) (expected : Expected) :
    Advances (someText stop expected) :=
  (moves_rawText stop).bind fun text => by
    by_cases h : text = ""
    · simp only [h, ↓reduceIte]
      exact moves_unexpected _ _
    · simp only [h, ↓reduceIte]
      exact moves_pure fun k => k.2 h

end Reader

end InterfaceFile
