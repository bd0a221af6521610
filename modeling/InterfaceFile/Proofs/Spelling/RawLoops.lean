import InterfaceFile.Proofs.Reader.BalancedText
import InterfaceFile.Proofs.Spelling.Rounds

/-!
# The loops of raw text

Raw text is scanned with one state for brackets and literals together. Here it is read by two loops, one
inside the other: the outer one keeps the open brackets on a stack, and at a quote it runs the inner one,
which reads the literal to its end. Both loops take a character in each turn but the last, and what they
read is the raw text.
-/

namespace InterfaceFile

/-- What is read on the way from one cursor to another one in the same text. -/
def Cursor.upTo (c d : Cursor) : List Char :=
  c.rest.take (c.rest.length - d.rest.length)

theorem Cursor.upTo_moveOver {c : Cursor} {read rest : List Char} (whole : c.rest = read ++ rest) :
    c.upTo (c.moveOver read rest) = read := by
  simp [upTo, moveOver, whole]

theorem Cursor.moveOver_one {c : Cursor} {ch : Char} {rest : List Char} (text : c.rest = ch :: rest) :
    c.Reaches (c.moveOver [ch] rest) ∧ (c.moveOver [ch] rest).rest.length < c.rest.length :=
  ⟨Cursor.reaches_moveOver text, by simp [Cursor.moveOver, text]⟩

namespace Nesting

variable {brackets : List OpenBracket} {ch : Char}

theorem next_of_plain (offset : Nat) (plain : isQuote ch = false) :
    next ⟨brackets, none⟩ offset ch =
      ⟨(next ⟨brackets, none⟩ offset ch).brackets, none⟩ := by
  simp only [next, plain]
  split
  · rfl
  · split <;> rfl

theorem next_of_quote (offset : Nat) (quote : isQuote ch = true) :
    next ⟨brackets, none⟩ offset ch = ⟨brackets, some ⟨ch, offset, false⟩⟩ := by
  obtain ⟨noOpener, noCloser⟩ := isBracket_eq_false_of_isQuote quote
  simp [next, noOpener, noCloser, quote]

end Nesting

namespace Reader

/-! ## The two loops -/

/-- Reads one character of a literal, or a backslash with the character after it. `start` is the offset
    of the opening quote. -/
def literalStep (start : Nat) (quote : Char) (_ : Unit) : Reader (Turn Unit Unit) :=
  fun c => match c.rest with
  | [] => .error ⟨.unterminatedString, ⟨start, c.pos.offset⟩⟩
  | ch :: rest =>
    if ch = '\\' then .ok (.again (), c.moveOver (ch :: rest.take 1) (rest.drop 1))
    else .ok (if ch = quote then .done () else .again (), c.moveOver [ch] rest)

theorem advances_literalStep (start : Nat) (quote : Char) (u : Unit) :
    Advances (literalStep start quote u) := by
  intro c t d run
  unfold literalStep at run
  split at run
  · cases run
  · next ch rest text =>
    split at run
    · cases run
      refine ⟨Cursor.reaches_moveOver ?_, fun _ => ?_⟩
      · rw [text, List.cons_append, List.take_append_drop]
      · simp only [Cursor.moveOver, text, List.length_drop, List.length_cons]
        omega
    · cases run
      exact ⟨(Cursor.moveOver_one text).1, fun _ => (Cursor.moveOver_one text).2⟩

theorem moves_literalStep (start : Nat) (quote : Char) (u : Unit) :
    Moves Turn.IsAgain (literalStep start quote u) :=
  (advances_literalStep start quote u).moves

/-- Reads a literal that begins with the given quote. -/
def literal (quote : Char) : Reader Unit := do
  let start ← here
  let _ ← eat quote
  loop (literalStep start.offset quote) (moves_literalStep start.offset quote) ()

theorem advances_literal (quote : Char) : Advances (literal quote) :=
  forward_here.andThen fun _ => (moves_eat _).andThen fun _ =>
    advances_loop (advances_literalStep _ quote) ()

/-- Reads one character of a raw text, or a literal. `brackets` are the open brackets, innermost
    first. -/
def balancedStep (stop : Char → Bool) (brackets : List OpenBracket) :
    Reader (Turn (List OpenBracket) (List OpenBracket)) :=
  fun c => match c.rest with
  | [] => .ok (.done brackets, c)
  | ch :: rest =>
    if brackets.isEmpty && stop ch then .ok (.done brackets, c)
    else if isOpener ch then .ok (.again (⟨ch, c.pos.offset⟩ :: brackets), c.moveOver [ch] rest)
    else if isCloser ch then
      match brackets with
      | [] => .ok (.done [], c)
      | _ :: outer => .ok (.again outer, c.moveOver [ch] rest)
    else if isQuote ch then (literal ch >>= fun _ => pure (.again brackets)) c
    else .ok (.again brackets, c.moveOver [ch] rest)

theorem moves_balancedStep (stop : Char → Bool) (brackets : List OpenBracket) :
    Moves Turn.IsAgain (balancedStep stop brackets) := by
  intro c t d run
  unfold balancedStep at run
  split at run
  · cases run
    exact ⟨.refl c, False.elim⟩
  · next ch rest text =>
    have one := Cursor.moveOver_one text
    split at run
    · cases run
      exact ⟨.refl c, False.elim⟩
    split at run
    · cases run
      exact ⟨one.1, fun _ => one.2⟩
    split at run
    · split at run
      · cases run
        exact ⟨.refl c, False.elim⟩
      · cases run
        exact ⟨one.1, fun _ => one.2⟩
    split at run
    · exact ((advances_literal ch).start fun _ => forward_pure _) c t d run
    · cases run
      exact ⟨one.1, fun _ => one.2⟩

/-- Stops at the innermost bracket that is still open. -/
def noneOpen : List OpenBracket → Reader Unit
  | [] => pure ()
  | b :: _ => fail (.unclosed b.bracket) (.delimiter b.offset)

/-- Takes a raw text, trimmed of white space, by the two loops. -/
def balanced (stop : Char → Bool) : Reader String :=
  fun c => ((loop (balancedStep stop) (moves_balancedStep stop) [] >>= noneOpen) c).map fun s =>
    (String.ofList (Text.trim (c.upTo s.2)), s.2)

/-! ## The scanner goes through both -/

/-- Goes through a raw text without taking it. -/
def scanRaw (stop : Char → Bool) (n : Nesting) : Reader Unit :=
  fun c => (takeRaw stop n [] c.pos c.rest).map fun s => ((), c.moveOver s.1 s.2.1)

variable {stop : Char → Bool} {n : Nesting} {brackets : List OpenBracket} {c : Cursor} {ch : Char}
  {rest : List Char}

theorem takeRaw_taken (stop : Char → Bool) (n : Nesting) (taken : List Char) (pos : Position)
    (text : List Char) : takeRaw stop n taken pos text =
      (takeRaw stop n [] pos text).map fun s => (taken.reverse ++ s.1, s.2) := by
  induction text generalizing n taken pos with
  | nil =>
    rw [takeRaw, takeRaw]
    split <;> simp [Except.map]
  | cons ch text ih =>
    rw [takeRaw, takeRaw]
    split
    · simp [Except.map]
    · rw [ih _ (ch :: taken), ih _ [ch]]
      cases takeRaw stop (n.next pos.offset ch) [] (pos.step ch) text <;> simp [Except.map]

theorem scanRaw_end (text : c.rest = []) : scanRaw stop n c =
    match n.openError? c.pos.offset with
    | some e => .error e
    | none => .ok ((), c) := by
  obtain ⟨file, pos, _⟩ := c
  cases text
  rw [scanRaw, takeRaw]
  cases n.openError? pos.offset <;> rfl

theorem scanRaw_stop (text : c.rest = ch :: rest) (stops : n.stopsAt stop ch = true) :
    scanRaw stop n c = .ok ((), c) := by
  obtain ⟨file, pos, _⟩ := c
  cases text
  rw [scanRaw, takeRaw, if_pos stops]
  rfl

theorem scanRaw_next (text : c.rest = ch :: rest) (goes : n.stopsAt stop ch = false) :
    scanRaw stop n c = scanRaw stop (n.next c.pos.offset ch) (c.moveOver [ch] rest) := by
  obtain ⟨file, pos, _⟩ := c
  cases text
  rw [scanRaw, takeRaw, if_neg (by simp [goes]), takeRaw_taken, scanRaw]
  simp only [Cursor.moveOver, Position.after_cons, Position.after_nil]
  cases takeRaw stop (n.next pos.offset ch) [] (pos.step ch) rest <;> simp [Except.map]

/-- One turn of a loop with a reader after it. -/
theorem loop_bind {σ β γ : Type} {step : σ → Reader (Turn σ β)}
    {progress : ∀ s, Moves Turn.IsAgain (step s)} {f : β → Reader γ} (s : σ) (c : Cursor) :
    (loop step progress s >>= f) c =
      match step s c with
      | .error e => .error e
      | .ok (.done b, d) => f b d
      | .ok (.again t, d) => (loop step progress t >>= f) d := by
  rw [bind_eq]
  change (loopFrom step progress s c).bind _ = _
  rw [loopFrom_eq]
  match step s c with
  | .error e => rfl
  | .ok (.done b, d) => rfl
  | .ok (.again t, d) => exact (bind_eq d).symm

/-- Inside of a literal the scanner goes to the end of the literal. -/
theorem scanRaw_literal (quote : Char) (start : Nat) (c : Cursor) :
    scanRaw stop ⟨brackets, some ⟨quote, start, false⟩⟩ c =
      (loop (literalStep start quote) (moves_literalStep start quote) () >>= fun _ =>
        scanRaw stop ⟨brackets, none⟩) c := by
  induction size : c.rest.length using Nat.strongRecOn generalizing c with
  | ind size ih =>
    rw [loop_bind]
    cases text : c.rest with
    | nil => simp [scanRaw_end text, literalStep, text, Nesting.openError?]
    | cons ch rest =>
      rw [text, List.length_cons] at size
      rw [scanRaw_next text rfl]
      by_cases backslash : ch = '\\'
      · -- The character after a backslash, if there is one, belongs to the same turn.
        have turn : literalStep start quote () c =
            .ok (.again (), c.moveOver (ch :: rest.take 1) (rest.drop 1)) := by
          simp [literalStep, text, backslash]
        have escapes : Nesting.next ⟨brackets, some ⟨quote, start, false⟩⟩ c.pos.offset ch =
            ⟨brackets, some ⟨quote, start, true⟩⟩ := by
          simp [Nesting.next, backslash]
        simp only [turn, escapes,
          ← ih (rest.drop 1).length (by grind) (c.moveOver (ch :: rest.take 1) _) rfl]
        cases rest with
        | nil => rw [scanRaw_end rfl, scanRaw_end rfl]; rfl
        | cons after rest => exact scanRaw_next rfl rfl
      · by_cases closes : ch = quote
        · subst closes
          simp [literalStep, text, Nesting.next, backslash]
        · have turn : literalStep start quote () c = .ok (.again (), c.moveOver [ch] rest) := by
            simp [literalStep, text, backslash, closes]
          simp only [turn, ← ih rest.length (by omega) (c.moveOver [ch] rest) rfl]
          simp [Nesting.next, backslash, closes]

theorem literal_eq (text : c.rest = ch :: rest) : literal ch c =
    loop (literalStep c.pos.offset ch) (moves_literalStep c.pos.offset ch) () (c.moveOver [ch] rest) := by
  simp [literal, bind_eq, here, eat, text, Except.bind]

/-! ### One turn of the outer loop -/

theorem balancedStep_stop (text : c.rest = ch :: rest)
    (stops : (Nesting.mk brackets none).stopsAt stop ch = true) :
    brackets = [] ∧ balancedStep stop brackets c = .ok (.done [], c) := by
  obtain ⟨rfl, ends⟩ : brackets = [] ∧ (stop ch = true ∨ isCloser ch = true) := by
    simpa [Nesting.stopsAt] using stops
  refine ⟨rfl, ?_⟩
  rcases ends with ends | closes
  · simp [balancedStep, text, ends]
  · simp [balancedStep, text, closes, isOpener_eq_false_of_isCloser closes]

theorem not_isEmpty_and_stop (goes : (Nesting.mk brackets none).stopsAt stop ch = false) :
    (brackets.isEmpty && stop ch) = false ∧ (isCloser ch = true → brackets ≠ []) := by
  cases brackets with
  | nil => simpa [Nesting.stopsAt] using goes
  | cons b outer => simp

theorem balancedStep_char (text : c.rest = ch :: rest)
    (goes : (Nesting.mk brackets none).stopsAt stop ch = false) (plain : isQuote ch = false) :
    balancedStep stop brackets c =
      .ok (.again (Nesting.next ⟨brackets, none⟩ c.pos.offset ch).brackets, c.moveOver [ch] rest) := by
  obtain ⟨free, inside⟩ := not_isEmpty_and_stop goes
  by_cases opens : isOpener ch = true
  · simp [balancedStep, text, free, opens, Nesting.next]
  by_cases closes : isCloser ch = true
  · obtain ⟨b, outer, rfl⟩ := List.exists_cons_of_ne_nil (inside closes)
    simp [balancedStep, text, opens, closes, Nesting.next]
  · simp [balancedStep, text, free, opens, closes, plain, Nesting.next]

theorem balancedStep_quote (text : c.rest = ch :: rest)
    (goes : (Nesting.mk brackets none).stopsAt stop ch = false) (quote : isQuote ch = true) :
    balancedStep stop brackets c = (literal ch >>= fun _ => pure (.again brackets)) c := by
  obtain ⟨free, -⟩ := not_isEmpty_and_stop goes
  obtain ⟨noOpener, noCloser⟩ := isBracket_eq_false_of_isQuote quote
  simp [balancedStep, text, free, noOpener, noCloser, quote]

/-- Outside of literals the scanner does what the loop does that keeps the brackets. -/
theorem scanRaw_brackets (stop : Char → Bool) (brackets : List OpenBracket) (c : Cursor) :
    scanRaw stop ⟨brackets, none⟩ c =
      (loop (balancedStep stop) (moves_balancedStep stop) brackets >>= noneOpen) c := by
  induction size : c.rest.length using Nat.strongRecOn generalizing c brackets with
  | ind size ih =>
    rw [loop_bind]
    cases text : c.rest with
    | nil =>
      simp only [scanRaw_end text, balancedStep, text]
      cases brackets <;> rfl
    | cons ch rest =>
      rw [text, List.length_cons] at size
      cases goes : (Nesting.mk brackets none).stopsAt stop ch with
      | true =>
        obtain ⟨rfl, turn⟩ := balancedStep_stop text goes
        rw [scanRaw_stop text goes, turn]
        rfl
      | false =>
        rw [scanRaw_next text goes]
        cases quote : isQuote ch with
        | false =>
          rw [balancedStep_char text goes quote, Nesting.next_of_plain _ quote]
          exact ih rest.length (by omega) _ (c.moveOver [ch] rest) rfl
        | true =>
          rw [balancedStep_quote text goes quote, Nesting.next_of_quote _ quote, scanRaw_literal,
            bind_eq, bind_eq, literal_eq text]
          -- Both go on behind the literal, where less is unread.
          cases run : loop (literalStep c.pos.offset ch) (moves_literalStep c.pos.offset ch) ()
              (c.moveOver [ch] rest) with
          | error e => rfl
          | ok s =>
            have further := (forward_loop () _ _ _ run).1.length_le
            have less := (Cursor.moveOver_one text).2
            rw [text, List.length_cons, size] at less
            exact ih s.2.rest.length (Nat.lt_of_le_of_lt further less) brackets s.2 rfl

/-- Raw text is what the two loops read. -/
theorem rawText_eq_balanced (stop : Char → Bool) : rawText stop = balanced stop := by
  funext c
  have same := scanRaw_brackets stop [] c
  rw [balanced, ← same, scanRaw, rawText]
  cases taken : takeRaw stop {} [] c.pos c.rest with
  | error e => rfl
  | ok s =>
    obtain ⟨read, rest, pos⟩ := s
    obtain ⟨more, rfl, whole, -⟩ := takeRaw_split taken
    simp [Except.map, Cursor.upTo_moveOver whole]

end Reader

end InterfaceFile
