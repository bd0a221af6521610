import InterfaceFile.Reader.Basic
import InterfaceFile.Text.Pieces

/-!
# Characters and words

The smallest readers: single characters, runs of characters, words and comments. Words are runs of
ASCII letters, digits and underscores.
-/

namespace InterfaceFile

/-- Is it a character of a word? -/
def isWordChar (c : Char) : Bool :=
  c.isAlphanum || c = '_'

/-- Is it a space inside a line? Carriage returns count. -/
def isLineSpace (c : Char) : Bool :=
  c = ' ' || c = '\t' || c = '\r'

/-- Does the text begin with an ASCII capital letter? -/
def startsUpper (cs : List Char) : Bool :=
  cs.head?.any Char.isUpper

/-- Is the text a word that does not begin with a digit? -/
def isIdentifier (cs : List Char) : Bool :=
  cs.head?.any fun c => !c.isDigit

namespace Reader

variable {α : Type}

/-- Reads the longest run of characters of which `p` holds. -/
def readWhile (p : Char → Bool) : Reader (List Char) :=
  fun c =>
    let run := c.rest.takeWhile p
    .ok (run, c.moveOver run (c.rest.dropWhile p))

/-- Skips the spaces of a line. -/
def skipSpaces : Reader Unit := do
  let _ ← readWhile isLineSpace

/-- Skips white space, line ends included. -/
def skipBlanks : Reader Unit := do
  let _ ← readWhile Text.isBlank

/-- Reads `ch` if it comes next. -/
def eat (ch : Char) : Reader Bool :=
  fun c => match c.rest with
    | d :: rest => if d = ch then .ok (true, c.moveOver [d] rest) else .ok (false, c)
    | [] => .ok (false, c)

/-- Reads `text` if it comes next. -/
def eatText (text : List Char) : Reader Bool :=
  fun c =>
    if text.isPrefixOf c.rest then .ok (true, c.moveOver text (c.rest.drop text.length))
    else .ok (false, c)

/-- Does `ch` come next? -/
def atChar (ch : Char) : Reader Bool :=
  look fun rest => rest.head? = some ch

/-- Does `text` come next? -/
def atText (text : List Char) : Reader Bool :=
  look text.isPrefixOf

/-- Is everything read? -/
def atEnd : Reader Bool :=
  look List.isEmpty

/-- Is the line at its end, or at a comment? -/
def atLineEnd : Reader Bool :=
  look fun rest => match rest.head? with
    | none => true
    | some c => c = '\n' || c = '#'

/-- Reads the next word if it means something. `meaning` is told the word and the text after it;
    the empty word means nothing. -/
def word? (meaning : List Char → List Char → Option α) : Reader (Option α) :=
  fun c =>
    let word := c.rest.takeWhile isWordChar
    let rest := c.rest.dropWhile isWordChar
    match word, meaning word rest with
    | _ :: _, some a => .ok (some a, c.moveOver word rest)
    | _, _ => .ok (none, c)

/-- Reads `keyword` if it is the next whole word. -/
def eatKeyword (keyword : String) : Reader Bool := do
  let found ← word? fun word _ => if word = keyword.toList then some () else none
  return found.isSome

/-- Reads a word that does not begin with a digit. -/
def identifier? : Reader (Option String) :=
  word? fun word _ => if isIdentifier word then some (String.ofList word) else none

/-- What stands at a cursor, with its span: a text up to white space, or an end. -/
def foundAt (c : Cursor) : Found × Span :=
  match c.rest with
  | [] => (.endOfInput, .point c.pos.offset)
  | '\n' :: _ => (.endOfLine, .point c.pos.offset)
  | ch :: rest =>
    let text := if Text.isBlank ch then [ch] else ch :: rest.takeWhile fun d => !Text.isBlank d
    (.text (String.ofList text), c.pos.spanTo (c.pos.after text))

/-- Stops because something else was expected here. -/
def unexpected (expected : Expected) : Reader α :=
  fun c =>
    let (found, span) := foundAt c
    .error ⟨.unexpected expected found, span⟩

/-- Reads `ch`, which has to come next. -/
def expect (ch : Char) (expected : Expected) : Reader Unit := do
  if ← eat ch then return () else unexpected expected

/-- Reads `keyword`, which has to be the next whole word. -/
def expectKeyword (keyword : String) (expected : Expected) : Reader Unit := do
  if ← eatKeyword keyword then return () else unexpected expected

theorem forward_readWhile (p : Char → Bool) : Forward (readWhile p) := by
  intro c a d run
  cases run
  exact ⟨Cursor.reaches_moveOver (List.takeWhile_append_dropWhile).symm, False.elim⟩

theorem forward_skipSpaces : Forward skipSpaces :=
  (forward_readWhile _).andThen fun _ => forward_pure _

theorem forward_skipBlanks : Forward skipBlanks :=
  (forward_readWhile _).andThen fun _ => forward_pure _

theorem moves_eat (ch : Char) : Moves (· = true) (eat ch) := by
  intro c a d run
  unfold eat at run
  split at run
  · rename_i e rest text
    split at run
    · cases run
      exact ⟨Cursor.reaches_moveOver text, fun _ => by simp [Cursor.moveOver, text]⟩
    · cases run
      exact ⟨.refl c, fun h => by simp at h⟩
  · cases run
    exact ⟨.refl c, fun h => by simp at h⟩

theorem moves_eatText {text : List Char} (h : text ≠ []) : Moves (· = true) (eatText text) := by
  intro c a d run
  unfold eatText at run
  split at run
  · rename_i begins
    cases run
    obtain ⟨rest, eq⟩ := List.isPrefixOf_iff_prefix.1 begins
    have split : c.rest = text ++ c.rest.drop text.length := by simp [← eq]
    have positive := List.length_pos_iff.2 h
    refine ⟨Cursor.reaches_moveOver split, fun _ => ?_⟩
    simp only [Cursor.moveOver, List.length_drop, ← eq, List.length_append]
    omega
  · cases run
    exact ⟨.refl c, fun h => by simp at h⟩

theorem moves_word? (meaning : List Char → List Char → Option α) :
    Moves (fun o => o.isSome = true) (word? meaning) := by
  intro c a d run
  unfold word? at run
  dsimp only at run
  split at run
  · rename_i ch word b text _
    cases run
    have whole : c.rest = c.rest.takeWhile isWordChar ++ c.rest.dropWhile isWordChar :=
      List.takeWhile_append_dropWhile.symm
    refine ⟨Cursor.reaches_moveOver whole, fun _ => ?_⟩
    have lengths := congrArg List.length whole
    simp only [List.length_append, text, List.length_cons] at lengths
    simp only [Cursor.moveOver]
    omega
  · cases run
    exact ⟨.refl c, fun h => by simp at h⟩

theorem moves_eatKeyword (keyword : String) : Moves (· = true) (eatKeyword keyword) :=
  (moves_word? _).bind fun _ => moves_pure fun h => h.2 h.1

theorem moves_identifier? : Moves (fun o => o.isSome = true) identifier? :=
  moves_word? _

theorem moves_unexpected (p : α → Prop) (expected : Expected) :
    Moves p (unexpected expected : Reader α) := by
  intro c a d run
  cases run

theorem advances_expect (ch : Char) (expected : Expected) : Advances (expect ch expected) :=
  (moves_eat ch).branch (forward_pure _) (moves_unexpected _ _)

theorem advances_expectKeyword (keyword : String) (expected : Expected) :
    Advances (expectKeyword keyword expected) :=
  (moves_eatKeyword keyword).branch (forward_pure _) (moves_unexpected _ _)

end Reader

end InterfaceFile
