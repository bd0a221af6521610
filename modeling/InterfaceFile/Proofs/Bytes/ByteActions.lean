import InterfaceFile.Proofs.Reader.LineLookup
import InterfaceFile.Proofs.Reader.PointedStatement

/-!
# Single actions on bytes

A reader takes characters from a list; on bytes it has an offset, and what it looks at and takes are slices
of the source. Spans and positions keep offsets in 32 bits, so a text is cut out between offsets that have
wrapped around if the source is too long. There is no outcome if a slice reaches past its text or cuts a
character. In a source of less than 2³² bytes that never happens, and every action comes to what it does on
characters.
-/

namespace InterfaceFile

open String (utf8Len utf8Len_append utf8Len_toList)

variable {α β σ : Type} {file : Option String} {source : String} {c d : Cursor}

/-- What reading comes to on bytes: a result with the offset of what is unread, or an error. -/
abbrev ByteOutcome (α : Type) : Type :=
  Except ReadError (α × Nat)

namespace ByteOutcome

/-- The outcome of a reader, with the offset of the cursor that it comes to. -/
def ofReader (outcome : Except ReadError (α × Cursor)) : ByteOutcome α :=
  outcome.map fun s => (s.1, s.2.pos.offset)

/-- Goes on after a result. -/
def andThen (next : α → Nat → Option (ByteOutcome β)) : ByteOutcome α → Option (ByteOutcome β)
  | .error e => some (.error e)
  | .ok (a, offset) => next a offset

variable {outcome : Except ReadError (α × Cursor)} {a : α} {offset : Nat} {e : ReadError}

theorem ofReader_eq_ok :
    ofReader outcome = .ok (a, offset) ↔ ∃ d, outcome = .ok (a, d) ∧ d.pos.offset = offset := by
  cases outcome with
  | error e => simp [ofReader, Except.map]
  | ok result =>
    obtain ⟨b, d⟩ := result
    simp [ofReader, Except.map]

theorem ofReader_eq_error : ofReader outcome = .error e ↔ outcome = .error e := by
  cases outcome with
  | error e' => simp [ofReader, Except.map]
  | ok result => simp [ofReader, Except.map]

end ByteOutcome

/-! ## Single actions -/

namespace Bytes

open Reader (Turn)

/-- An offset as spans keep it. -/
def kept (offset : Nat) : Nat :=
  offset % 2 ^ 32

section Actions

variable (source : String)

/-- What is unread at an offset. -/
def rest? (offset : Nat) : Option String :=
  (Span.mk offset source.utf8ByteSize).slice? source

/-- The text of the span between two offsets. -/
def textFor? (start stop : Nat) : Option String :=
  (Span.mk (kept start) (kept stop)).slice? source

/-- The offset with its line and column. -/
def here (offset : Nat) : Option (ByteOutcome Position) := do
  let place ← lineCol? source (kept offset)
  return .ok (⟨kept offset, place⟩, offset)

/-- Looks at what is unread. -/
def look (f : List Char → α) (offset : Nat) : Option (ByteOutcome α) := do
  let rest ← rest? source offset
  return .ok (f rest.toList, offset)

/-- Looks for a capital letter behind a `::`. -/
def continuesPath (offset : Nat) : Option (ByteOutcome Bool) := do
  let rest ← rest? source offset
  if [':', ':'].isPrefixOf rest.toList then
    let more ← (Span.mk 2 rest.utf8ByteSize).slice? rest
    return .ok (startsUpper more.toList, offset)
  else return .ok (false, offset)

/-- Skips a run of characters, without their text. -/
def skipWhile (p : Char → Bool) (offset : Nat) : Option (ByteOutcome Unit) := do
  let rest ← rest? source offset
  return .ok ((), offset + utf8Len (rest.toList.takeWhile p))

/-- Reads a run of characters and takes its text. -/
def readWhile (p : Char → Bool) (offset : Nat) : Option (ByteOutcome (List Char)) := do
  let rest ← rest? source offset
  let stop := offset + utf8Len (rest.toList.takeWhile p)
  let run ← textFor? source offset stop
  return .ok (run.toList, stop)

/-- Reads a character if it comes next. -/
def eat (ch : Char) (offset : Nat) : Option (ByteOutcome Bool) := do
  let rest ← rest? source offset
  return .ok (if rest.toList.head? = some ch then (true, offset + ch.utf8Size) else (false, offset))

/-- Reads a text if it comes next. -/
def eatText (text : List Char) (offset : Nat) : Option (ByteOutcome Bool) := do
  let rest ← rest? source offset
  return .ok (if text.isPrefixOf rest.toList then (true, offset + utf8Len text) else (false, offset))

/-- Reads the next word if it means something; `meaning` is told the word and what comes after it. -/
def word? (meaning : List Char → List Char → Option α) (offset : Nat) : Option (ByteOutcome (Option α)) := do
  let rest ← rest? source offset
  let size := utf8Len (rest.toList.takeWhile isWordChar)
  let word ← (Span.mk 0 size).slice? rest
  let more ← (Span.mk size rest.utf8ByteSize).slice? rest
  if word.toList = [] then return .ok (none, offset)
  else match meaning word.toList more.toList with
    | some a => return .ok (some a, offset + size)
    | none => return .ok (none, offset)

/-- What stands at an offset, with its span. The end of the span is the greatest offset at most. -/
def found? (offset : Nat) : Option (Found × Span) := do
  let rest ← rest? source offset
  match rest.toList with
  | [] => return (.endOfInput, .point (kept offset))
  | '\n' :: _ => return (.endOfLine, .point (kept offset))
  | ch :: _ =>
    let size := max (utf8Len (rest.toList.takeWhile fun d => !Text.isBlank d)) ch.utf8Size
    let text ← (Span.mk 0 size).slice? rest
    return (.text text, ⟨kept offset, min (kept offset + size) (2 ^ 32 - 1)⟩)

/-- Stops because something else was expected. -/
def unexpected (expected : Expected) (offset : Nat) : Option (ByteOutcome α) := do
  let (found, span) ← found? source offset
  return .error ⟨.unexpected expected found, span⟩

/-- Takes a raw text. -/
def rawText (stop : Char → Bool) (offset : Nat) : Option (ByteOutcome String) := do
  let rest ← rest? source offset
  match takeRaw stop {} [] { offset } rest.toList with
  | .error e => return .error { e with span := ⟨kept e.span.start, kept e.span.stop⟩ }
  | .ok (_, _, last) =>
    let text ← textFor? source offset last.offset
    return .ok (String.ofList (Text.trim text.toList), last.offset)

/-- Makes a result again from the text between two offsets, if it comes from there. -/
def retaken (make? : Option (List Char → α)) (a : α) (start stop : Nat) : Option (ByteOutcome α) :=
  match make? with
  | some make => do
    let text ← textFor? source start stop
    return .ok (make text.toList, stop)
  | none => return .ok (a, stop)

end Actions

/-- Repeats a step until it is done, at most `rounds` times. -/
def loop (step : σ → Nat → Option (ByteOutcome (Turn σ β))) :
    Nat → σ → Nat → Option (ByteOutcome β)
  | 0, _, _ => none
  | rounds + 1, s, offset => (step s offset).bind <| ByteOutcome.andThen fun
    | .done b, offset => some (.ok (b, offset))
    | .again s, offset => loop step rounds s offset

section Loop

variable {step : σ → Nat → Option (ByteOutcome (Turn σ β))} {s t : σ} {b : β} {n o p : Nat}

theorem loop_again (turn : step s o = some (.ok (.again t, p))) :
    loop step (n + 1) s o = loop step n t p := by
  rw [loop, turn]
  rfl

theorem loop_done (turn : step s o = some (.ok (.done b, p))) :
    loop step (n + 1) s o = some (.ok (b, p)) := by
  rw [loop, turn]
  rfl

end Loop

/-! ### What they come to -/

theorem kept_eq (short : source.utf8ByteSize < 2 ^ 32) {n : Nat} (inside : n ≤ source.utf8ByteSize) :
    kept n = n :=
  Nat.mod_eq_of_lt (Nat.lt_of_le_of_lt inside short)

/-! What is unread decides what comes of looking and of going on. The offset may be any. -/

section Unread

variable {offset : Nat} {rest : List Char} (unread : rest? source offset = some (String.ofList rest))

include unread

theorem look_of_rest? (f : List Char → α) : look source f offset = some (.ok (f rest, offset)) := by
  simp [look, unread]

theorem skipWhile_of_rest? (p : Char → Bool) :
    skipWhile source p offset = some (.ok ((), offset + utf8Len (rest.takeWhile p))) := by
  simp [skipWhile, unread]

theorem eat_of_rest? (ch : Char) : eat source ch offset =
    some (.ok (if rest.head? = some ch then (true, offset + ch.utf8Size) else (false, offset))) := by
  simp [eat, unread]

theorem eatText_of_rest? (text : List Char) : eatText source text offset =
    some (.ok (if text.isPrefixOf rest then (true, offset + utf8Len text) else (false, offset))) := by
  simp [eatText, unread]

theorem word?_of_rest? (meaning : List Char → List Char → Option α) :
    word? source meaning offset = some (.ok (match rest.takeWhile isWordChar with
      | [] => (none, offset)
      | ch :: word => match meaning (ch :: word) (rest.dropWhile isWordChar) with
        | some a => (some a, offset + utf8Len (ch :: word))
        | none => (none, offset))) := by
  have whole : (String.ofList rest).toList =
      rest.takeWhile isWordChar ++ rest.dropWhile isWordChar := by
    rw [String.toList_ofList, List.takeWhile_append_dropWhile]
  simp only [word?, unread, Option.bind_eq_bind, Option.bind_some, String.toList_ofList,
    Span.slice?_upTo whole, Span.slice?_from whole]
  cases rest.takeWhile isWordChar with
  | nil => rfl
  | cons ch word =>
    rw [if_neg (List.cons_ne_nil _ _)]
    dsimp only
    cases meaning (ch :: word) (rest.dropWhile isWordChar) <;> rfl

end Unread

section Outcomes

variable (reached : (Cursor.ofText file source.toList).Reaches c)

include reached

theorem slice?_read {read more : List Char} (whole : c.rest = read ++ more) :
    (Span.mk c.pos.offset (c.pos.offset + utf8Len read)).slice? source = some (String.ofList read) := by
  obtain ⟨front, all, pos⟩ := reached.front
  have pieces : source.toList = front ++ read ++ more := by rw [all, whole, List.append_assoc]
  have found := Span.slice?_of_append pieces
  rwa [utf8Len_append, ← Nat.zero_add (utf8Len front), ← Position.offset_after {}, ← pos] at found

theorem rest?_eq : rest? source c.pos.offset = some (String.ofList c.rest) := by
  obtain ⟨front, all, pos⟩ := reached.front
  rw [rest?, pos, Position.offset_after, Nat.zero_add]
  exact Span.slice?_from all

theorem look_eq (f : List Char → α) :
    look source f c.pos.offset = some (.ofReader (Reader.look f c)) :=
  look_of_rest? (rest?_eq reached) f

theorem skipWhile_eq (p : Char → Bool) : skipWhile source p c.pos.offset =
    some (.ofReader ((Reader.readWhile p >>= fun _ => pure () : Reader Unit) c)) := by
  have outcome : ByteOutcome.ofReader ((Reader.readWhile p >>= fun _ => pure () : Reader Unit) c) =
      .ok ((), (c.pos.after (c.rest.takeWhile p)).offset) := rfl
  rw [outcome, Position.offset_after]
  exact skipWhile_of_rest? (rest?_eq reached) p

theorem continuesPath_eq : continuesPath source c.pos.offset =
    some (.ofReader (Reader.look Reader.continuesPath c)) := by
  have outcome : ByteOutcome.ofReader (Reader.look Reader.continuesPath c) =
      .ok (Reader.continuesPath c.rest, c.pos.offset) := rfl
  rw [outcome]
  simp only [continuesPath, rest?_eq reached, Option.bind_eq_bind, Option.bind_some, String.toList_ofList]
  split
  · next begins =>
    obtain ⟨more, text⟩ := List.isPrefixOf_iff_prefix.1 begins
    have whole : (String.ofList c.rest).toList = [':', ':'] ++ more := by
      rw [String.toList_ofList, text]
    have cut : (Span.mk 2 (String.ofList c.rest).utf8ByteSize).slice? (String.ofList c.rest) =
        some (String.ofList more) := Span.slice?_from whole
    rw [cut, ← text]
    simp [Reader.continuesPath]
  · next other =>
    have none : Reader.continuesPath c.rest = false := by
      unfold Reader.continuesPath
      split
      · next more text =>
        rw [text] at other
        simp at other
      · rfl
    rw [none]
    rfl

theorem eat_eq (ch : Char) : eat source ch c.pos.offset = some (.ofReader (Reader.eat ch c)) := by
  rw [eat_of_rest? (rest?_eq reached), Reader.eat]
  obtain ⟨file', pos, rest⟩ := c
  cases rest with
  | nil => rfl
  | cons d rest =>
    by_cases same : d = ch
    · subst same
      simp [ByteOutcome.ofReader, Except.map, Cursor.moveOver, Position.step]
    · simp [ByteOutcome.ofReader, Except.map, same]

theorem eatText_eq (text : List Char) :
    eatText source text c.pos.offset = some (.ofReader (Reader.eatText text c)) := by
  rw [eatText_of_rest? (rest?_eq reached), Reader.eatText]
  split <;> simp [ByteOutcome.ofReader, Except.map, Cursor.moveOver]

theorem word?_eq (meaning : List Char → List Char → Option α) :
    word? source meaning c.pos.offset = some (.ofReader (Reader.word? meaning c)) := by
  rw [word?_of_rest? (rest?_eq reached), Reader.word?]
  cases c.rest.takeWhile isWordChar with
  | nil => rfl
  | cons ch word =>
    dsimp only
    cases meaning (ch :: word) (c.rest.dropWhile isWordChar) with
    | none => rfl
    | some a =>
      change _ = some (Except.ok (some a, (c.pos.after (ch :: word)).offset))
      rw [Position.offset_after]

/-- What is found is a slice of what is unread. -/
theorem found?_eq (short : source.utf8ByteSize < 2 ^ 32) :
    found? source c.pos.offset = some (Reader.foundAt c) := by
  have here := kept_eq short reached.offset_le
  obtain ⟨file', pos, rest⟩ := c
  simp only [found?, rest?_eq reached, Option.bind_eq_bind, Option.bind_some, String.toList_ofList,
    Reader.foundAt, here]
  split
  · rfl
  · rfl
  · next ch more other =>
    -- The text is the run up to white space, but one character at least.
    have begins : ∃ text back, ch :: more = text ++ back ∧
        text = (if Text.isBlank ch then [ch] else ch :: more.takeWhile fun d => !Text.isBlank d) ∧
        max (utf8Len ((ch :: more).takeWhile fun d => !Text.isBlank d)) ch.utf8Size = utf8Len text := by
      by_cases blank : Text.isBlank ch = true
      · refine ⟨[ch], more, rfl, by rw [if_pos blank], ?_⟩
        rw [List.takeWhile_cons_of_neg (by simpa using blank)]
        simp
      · refine ⟨ch :: more.takeWhile fun d => !Text.isBlank d, more.dropWhile fun d => !Text.isBlank d,
          by rw [List.cons_append, List.takeWhile_append_dropWhile], by rw [if_neg blank], ?_⟩
        rw [List.takeWhile_cons_of_pos (by simpa using blank), String.utf8Len_cons]
        omega
    obtain ⟨text, back, whole, same, size⟩ := begins
    have cut := Span.slice?_upTo (String.toList_ofList.trans whole)
    have bound := (reached.trans (Cursor.reaches_moveOver whole)).offset_le
    rw [Cursor.moveOver, Position.offset_after] at bound
    change pos.offset + utf8Len text ≤ _ at bound
    have stop : min (pos.offset + utf8Len text) (2 ^ 32 - 1) = pos.offset + utf8Len text := by omega
    simp only [size, cut, Option.bind_some, stop, ← same, Position.spanTo, Position.offset_after,
      Option.pure_def]

theorem unexpected_eq (short : source.utf8ByteSize < 2 ^ 32) (expected : Expected) :
    unexpected source expected c.pos.offset =
      some (.ofReader (Reader.unexpected expected c : Except ReadError (α × Cursor))) := by
  simp [unexpected, found?_eq reached short, Reader.unexpected, ByteOutcome.ofReader, Except.map]

theorem here_eq (short : source.utf8ByteSize < 2 ^ 32) :
    here source c.pos.offset = some (.ofReader (Reader.here c)) := by
  simp [here, kept_eq short reached.offset_le, reached.lineCol?, Reader.here, ByteOutcome.ofReader,
    Except.map]

/-- The text between two places that reading comes to. -/
theorem textFor?_eq (short : source.utf8ByteSize < 2 ^ 32) {read more : List Char}
    (whole : c.rest = read ++ more) :
    textFor? source c.pos.offset (c.pos.offset + utf8Len read) = some (String.ofList read) := by
  have bound := (reached.trans (Cursor.reaches_moveOver whole)).offset_le
  rw [Cursor.moveOver, Position.offset_after] at bound
  rw [textFor?, kept_eq short reached.offset_le, kept_eq short bound]
  exact slice?_read reached whole

theorem readWhile_eq (short : source.utf8ByteSize < 2 ^ 32) (p : Char → Bool) :
    readWhile source p c.pos.offset = some (.ofReader (Reader.readWhile p c)) := by
  have whole : c.rest = c.rest.takeWhile p ++ c.rest.dropWhile p :=
    List.takeWhile_append_dropWhile.symm
  simp [readWhile, rest?_eq reached, textFor?_eq reached short whole, Reader.readWhile,
    ByteOutcome.ofReader, Except.map, Cursor.moveOver]

end Outcomes

/-- What a raw text takes depends on the offset alone. -/
theorem takeRaw_offset {stop : Char → Bool} {n : Nesting} {taken text : List Char} {p q : Position}
    (same : p.offset = q.offset) :
    (takeRaw stop n taken p text).map (fun s => (s.1, s.2.1, s.2.2.offset)) =
      (takeRaw stop n taken q text).map fun s => (s.1, s.2.1, s.2.2.offset) := by
  induction text generalizing n taken p q with
  | nil =>
    rw [takeRaw, takeRaw, same]
    split
    · rfl
    · exact congrArg Except.ok (congrArg (fun offset => (taken.reverse, [], offset)) same)
  | cons ch text ih =>
    rw [takeRaw, takeRaw, same]
    split
    · exact congrArg Except.ok (congrArg (fun offset => (taken.reverse, ch :: text, offset)) same)
    · exact ih (congrArg (· + ch.utf8Size) same)

theorem rawText_eq (reached : (Cursor.ofText file source.toList).Reaches c)
    (short : source.utf8ByteSize < 2 ^ 32) (stop : Char → Bool) :
    rawText source stop c.pos.offset = some (.ofReader (Reader.rawText stop c)) := by
  have both : (takeRaw stop {} [] { offset := c.pos.offset } c.rest).map
        (fun s => (s.1, s.2.1, s.2.2.offset)) =
      (takeRaw stop {} [] c.pos c.rest).map fun s => (s.1, s.2.1, s.2.2.offset) := takeRaw_offset rfl
  simp only [rawText, rest?_eq reached, Option.bind_eq_bind, Option.bind_some, String.toList_ofList]
  cases there : takeRaw stop {} [] c.pos c.rest with
  | error e =>
    have failed : Reader.rawText stop c = .error e := by rw [Reader.rawText, there]
    have shown := ((Reader.pointed_rawText stop c reached).error e failed).inside
    have span : (⟨kept e.span.start, kept e.span.stop⟩ : Span) = e.span := by
      rw [kept_eq short (shown.forwards.trans shown.stop_le), kept_eq short shown.stop_le]
    rw [there] at both
    cases here : takeRaw stop {} [] { offset := c.pos.offset } c.rest with
    | ok result =>
      rw [here] at both
      cases both
    | error e' =>
      rw [here] at both
      cases both
      rw [failed]
      simp only [span]
      rfl
  | ok result =>
    obtain ⟨read, rest, last⟩ := result
    obtain ⟨more, taken, whole, pos⟩ := takeRaw_split there
    obtain rfl : read = more := taken
    have text := textFor?_eq reached short whole
    rw [there] at both
    cases here : takeRaw stop {} [] { offset := c.pos.offset } c.rest with
    | error e =>
      rw [here] at both
      cases both
    | ok result =>
      obtain ⟨read', rest', last'⟩ := result
      rw [here] at both
      have ends : last'.offset = c.pos.offset + utf8Len read := by
        have same := congrArg (fun s => s.map fun s => s.2.2) both
        rw [← Position.offset_after, ← pos]
        exact Except.ok.inj same
      have outcome : Reader.rawText stop c =
          .ok (String.ofList (Text.trim read), c.moveOver read rest) := by rw [Reader.rawText, there]
      simp only [ends, text, outcome, Option.bind_some, String.toList_ofList, ByteOutcome.ofReader,
        Except.map, Cursor.moveOver, Position.offset_after]
      rfl

end Bytes

end InterfaceFile
