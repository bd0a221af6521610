import InterfaceFile.Reader.RawText

/-!
# Balanced text

What raw text is, said without a scanner: characters, literals that are closed and brackets that are
paired by count. A reader of raw text takes just the balanced text that ends where something may stop
it, and if there is none then the text leaves a literal or a bracket open, of which the error tells.
-/

namespace InterfaceFile

/-- The text behind the opening quote of a literal that goes on. A backslash takes the character
    after it along; the index says whether one still waits for it. -/
inductive LiteralText (quote : Char) : Bool → List Char → Prop
  | nil : LiteralText quote false []
  | char {text : List Char} {c : Char} (front : LiteralText quote false text) (plain : c ≠ '\\')
      (inside : c ≠ quote) : LiteralText quote false (text ++ [c])
  | backslash {text : List Char} (front : LiteralText quote false text) :
      LiteralText quote true (text ++ ['\\'])
  | escaped {text : List Char} {c : Char} (front : LiteralText quote true text) :
      LiteralText quote false (text ++ [c])

/-- A text in which all literals are closed and brackets are paired, of whatever kind they are. No
    character outside of these is a stop character. -/
inductive Balanced : (Char → Bool) → List Char → Prop
  | nil {stop : Char → Bool} : Balanced stop []
  | char {stop : Char → Bool} {text : List Char} {c : Char} (front : Balanced stop text)
      (free : stop c = false) (plain : (isOpener c || isCloser c || isQuote c) = false) :
      Balanced stop (text ++ [c])
  | literal {stop : Char → Bool} {text inside : List Char} {quote : Char}
      (front : Balanced stop text) (free : stop quote = false) (opens : isQuote quote = true)
      (closed : LiteralText quote false inside) :
      Balanced stop (text ++ quote :: (inside ++ [quote]))
  | bracket {stop : Char → Bool} {text inside : List Char} {opener closer : Char}
      (front : Balanced stop text) (free : stop opener = false) (opens : isOpener opener = true)
      (balanced : Balanced (fun _ => false) inside) (closes : isCloser closer = true) :
      Balanced stop (text ++ opener :: (inside ++ [closer]))

/-- The text that begins at `start` leaves just the given brackets open, innermost first: what stands
    behind each is balanced. -/
inductive LeavesOpen (stop : Char → Bool) (start : Position) : List OpenBracket → List Char → Prop
  | level {text : List Char} (balanced : Balanced stop text) : LeavesOpen stop start [] text
  | bracket {brackets : List OpenBracket} {text inside : List Char} {opener : Char}
      (front : LeavesOpen stop start brackets text) (free : brackets = [] → stop opener = false)
      (opens : isOpener opener = true) (balanced : Balanced (fun _ => false) inside) :
      LeavesOpen stop start (⟨opener, (start.after text).offset⟩ :: brackets)
        (text ++ opener :: inside)

/-- The error that a text without an end to take makes: a literal that is not closed, up to the end of
    the text, or the innermost bracket. -/
inductive Unfinished (stop : Char → Bool) (start : Position) (text : List Char) : ReadError → Prop
  | literal {brackets : List OpenBracket} {front inside : List Char} {quote : Char} {escaped : Bool}
      (whole : text = front ++ quote :: inside) (opened : LeavesOpen stop start brackets front)
      (free : brackets = [] → stop quote = false) (opens : isQuote quote = true)
      (unclosed : LiteralText quote escaped inside) :
      Unfinished stop start text
        ⟨.unterminatedString, ⟨(start.after front).offset, (start.after text).offset⟩⟩
  | bracket {innermost : OpenBracket} {outer : List OpenBracket}
      (opened : LeavesOpen stop start (innermost :: outer) text) :
      Unfinished stop start text ⟨.unclosed innermost.bracket, .delimiter innermost.offset⟩

/-! ## What the scanner has gone through -/

variable {stop : Char → Bool} {start : Position} {brackets : List OpenBracket}
  {text read : List Char} {n : Nesting} {c : Char}

/-- What extends every balanced text extends a text that leaves brackets open: the innermost of them
    takes it. -/
theorem LeavesOpen.extend {piece : List Char} (h : LeavesOpen stop start brackets read)
    (balanced : ∀ s text, (brackets = [] → s = stop) → (brackets ≠ [] → s = fun _ => false) →
      Balanced s text → Balanced s (text ++ piece)) :
    LeavesOpen stop start brackets (read ++ piece) := by
  cases h with
  | level level => exact .level (balanced stop _ (fun _ => rfl) (fun h => absurd rfl h) level)
  | bracket front free opens inside =>
    rw [List.append_assoc, List.cons_append]
    exact .bracket front free opens (balanced _ _ nofun (fun _ => rfl) inside)

/-- A character that stops nothing at its level. -/
theorem LeavesOpen.free_of {s : Char → Bool} (free : brackets = [] → stop c = false)
    (top : brackets = [] → s = stop) (inner : brackets ≠ [] → s = fun _ => false) : s c = false := by
  by_cases empty : brackets = []
  · rw [top empty, free empty]
  · rw [inner empty]

/-- The scanner's state after a text that begins at `start`. -/
def Nesting.Describes (stop : Char → Bool) (start : Position) (n : Nesting) (read : List Char) : Prop :=
  match n.literal with
  | none => LeavesOpen stop start n.brackets read
  | some l => ∃ front inside, read = front ++ l.quote :: inside ∧
      LeavesOpen stop start n.brackets front ∧ (n.brackets = [] → stop l.quote = false) ∧
      isQuote l.quote = true ∧ LiteralText l.quote l.escaped inside ∧
      l.offset = (start.after front).offset

namespace Nesting.Describes

/-- One character more outside of literals. -/
theorem next_of_level (h : LeavesOpen stop start brackets read)
    (goes : (Nesting.mk brackets none).stopsAt stop c = false) :
    (Nesting.next ⟨brackets, none⟩ (start.after read).offset c).Describes stop start (read ++ [c]) := by
  have level : brackets = [] → stop c = false ∧ isCloser c = false := by
    rintro rfl
    simpa [Nesting.stopsAt] using goes
  have free : brackets = [] → stop c = false := fun empty => (level empty).1
  simp only [Nesting.next]
  split
  · next opens => exact LeavesOpen.bracket h free opens .nil
  · next noOpener =>
    split
    · next closes =>
      cases h with
      | level =>
        have none := (level rfl).2
        rw [closes] at none
        cases none
      | @bracket outer text inside opener front free' opens balanced =>
        have closed : LeavesOpen stop start outer (text ++ opener :: (inside ++ [c])) :=
          front.extend fun s w top inner front' =>
            .bracket front' (LeavesOpen.free_of free' top inner) opens balanced closes
        simpa [Nesting.Describes] using closed
    · next noCloser =>
      split
      · next quote => exact ⟨read, [], rfl, h, free, quote, .nil, rfl⟩
      · next noQuote =>
        exact h.extend fun s w top inner front =>
          .char front (LeavesOpen.free_of free top inner) (by simp [noOpener, noCloser, noQuote])

/-- One character more that stops nothing. -/
theorem next (h : n.Describes stop start read) (goes : n.stopsAt stop c = false) :
    (n.next (start.after read).offset c).Describes stop start (read ++ [c]) := by
  obtain ⟨brackets, literal⟩ := n
  cases literal with
  | none => exact next_of_level h goes
  | some l =>
    obtain ⟨quote, offset, escaped⟩ := l
    obtain ⟨front, inside, rfl, opened, free, opens, body, rfl⟩ := h
    have goOn : ∀ e, LiteralText quote e (inside ++ [c]) →
        (Nesting.mk brackets (some ⟨quote, (start.after front).offset, e⟩)).Describes stop start
          (front ++ quote :: inside ++ [c]) := fun e body' =>
      ⟨front, inside ++ [c], by simp, opened, free, opens, body', rfl⟩
    cases escaped with
    | true => exact goOn false body.escaped
    | false =>
      simp only [Nesting.next, Bool.false_eq_true, if_false]
      split
      · next slash =>
        subst slash
        exact goOn true body.backslash
      · next plain =>
        split
        · next closes =>
          subst closes
          have closed : LeavesOpen stop start brackets (front ++ c :: (inside ++ [c])) :=
            opened.extend fun s w top inner front' =>
              .literal front' (LeavesOpen.free_of free top inner) opens body
          simpa [Nesting.Describes] using closed
        · next other => exact goOn false (body.char plain other)

/-- Where the scanner stops at a character, what it has gone through is balanced. -/
theorem balanced_of_stopsAt (h : n.Describes stop start read) (stops : n.stopsAt stop c = true) :
    Balanced stop read ∧ (stop c = true ∨ isCloser c = true) := by
  obtain ⟨brackets, literal⟩ := n
  simp only [Nesting.stopsAt, Bool.and_eq_true, Option.isNone_iff_eq_none, List.isEmpty_iff,
    Bool.or_eq_true] at stops
  obtain ⟨⟨rfl, rfl⟩, ends⟩ := stops
  cases h with
  | level balanced => exact ⟨balanced, ends⟩

/-- Where the text ends in the open, there is an error that it makes. -/
theorem unfinished_of_openError? {e : ReadError} (h : n.Describes stop start read)
    (open_ : n.openError? (start.after read).offset = some e) : Unfinished stop start read e := by
  obtain ⟨brackets, literal⟩ := n
  cases literal with
  | some l =>
    obtain ⟨front, inside, whole, opened, free, opens, body, begins⟩ := h
    obtain rfl := Option.some.inj open_
    rw [begins]
    exact .literal whole opened free opens body
  | none =>
    cases brackets with
    | nil => cases open_
    | cons b outer =>
      obtain rfl := Option.some.inj open_
      exact .bracket h

/-- Where the text ends with nothing open, it is balanced. -/
theorem balanced_of_openError? {offset : Nat} (h : n.Describes stop start read)
    (closed : n.openError? offset = none) : Balanced stop read := by
  obtain ⟨brackets, literal⟩ := n
  cases literal with
  | some l => cases closed
  | none =>
    cases brackets with
    | nil =>
      cases h with
      | level balanced => exact balanced
    | cons b outer => cases closed

end Nesting.Describes

/-- Raw text ends before what follows. -/
def EndsBefore (stop : Char → Bool) (rest : List Char) : Prop :=
  ∀ c ∈ rest.head?, stop c = true ∨ isCloser c = true

/-- What the scanner comes to: it takes balanced text up to something that stops it, or the text is
    unfinished. -/
theorem takeRaw_cases (h : n.Describes stop start read) (text : List Char) :
    (∃ taken rest pos, takeRaw stop n read.reverse (start.after read) text = .ok (taken, rest, pos) ∧
      read ++ text = taken ++ rest ∧ Balanced stop taken ∧ EndsBefore stop rest) ∨
    ∃ e, takeRaw stop n read.reverse (start.after read) text = .error e ∧
      Unfinished stop start (read ++ text) e := by
  induction text generalizing n read with
  | nil =>
    rw [takeRaw, List.append_nil]
    cases open_ : n.openError? (start.after read).offset with
    | some e => exact .inr ⟨e, rfl, h.unfinished_of_openError? open_⟩
    | none =>
      refine .inl ⟨read, [], _, by rw [List.reverse_reverse], by simp, ?_, nofun⟩
      exact h.balanced_of_openError? open_
  | cons c text ih =>
    rw [takeRaw]
    by_cases stops : n.stopsAt stop c = true
    · obtain ⟨balanced, ends⟩ := h.balanced_of_stopsAt stops
      rw [if_pos stops]
      exact .inl ⟨read, c :: text, _, by rw [List.reverse_reverse], rfl, balanced,
        by simpa [EndsBefore] using ends⟩
    · have further := ih (h.next (by simpa using stops))
      rw [Position.after_append, List.reverse_append, List.append_assoc] at further
      rw [if_neg stops]
      exact further

/-! ## What the scanner goes through -/

section Through

variable {pos : Position} {taken rest : List Char}

theorem takeRaw_goes (goes : n.stopsAt stop c = false) :
    takeRaw stop n taken pos (c :: rest) =
      takeRaw stop (n.next pos.offset c) (c :: taken) (pos.step c) rest := by
  rw [takeRaw, if_neg (by simp [goes])]

/-- Inside a literal nothing stops the scanner. -/
theorem takeRaw_literal {quote : Char} {offset : Nat} {escaped : Bool} {inside : List Char}
    (h : LiteralText quote escaped inside) :
    takeRaw stop ⟨brackets, some ⟨quote, offset, false⟩⟩ taken pos (inside ++ rest) =
      takeRaw stop ⟨brackets, some ⟨quote, offset, escaped⟩⟩ (inside.reverse ++ taken)
        (pos.after inside) rest := by
  induction h generalizing rest with
  | nil => rfl
  | char front plain inside ih =>
    rw [List.append_assoc, ih, List.singleton_append, takeRaw_goes rfl]
    simp [Nesting.next, plain, inside, Position.after_append]
  | backslash front ih =>
    rw [List.append_assoc, ih, List.singleton_append, takeRaw_goes rfl]
    simp [Nesting.next, Position.after_append]
  | escaped front ih =>
    rw [List.append_assoc, ih, List.singleton_append, takeRaw_goes rfl]
    simp [Nesting.next, Position.after_append]

/-- Outside of literals a character that is free at its level does not stop the scanner. -/
theorem goes_of_free (free : brackets = [] → stop c = false)
    (noCloser : brackets = [] → isCloser c = false) :
    (Nesting.mk brackets none).stopsAt stop c = false := by
  cases brackets with
  | nil => simp [Nesting.stopsAt, free rfl, noCloser rfl]
  | cons b outer => rfl

theorem isCloser_eq_false_of_isOpener (opens : isOpener c = true) : isCloser c = false := by
  simp only [isOpener, Bool.or_eq_true, decide_eq_true_eq] at opens
  rcases opens with (rfl | rfl) | rfl <;> rfl

theorem isOpener_eq_false_of_isCloser (closes : isCloser c = true) : isOpener c = false := by
  simp only [isCloser, Bool.or_eq_true, decide_eq_true_eq] at closes
  rcases closes with (rfl | rfl) | rfl <;> rfl

theorem isBracket_eq_false_of_isQuote (opens : isQuote c = true) :
    isOpener c = false ∧ isCloser c = false := by
  simp only [isQuote, Bool.or_eq_true, decide_eq_true_eq] at opens
  rcases opens with rfl | rfl <;> exact ⟨rfl, rfl⟩

/-- The scanner enters a bracket. -/
theorem takeRaw_opener (free : brackets = [] → stop c = false) (opens : isOpener c = true) :
    takeRaw stop ⟨brackets, none⟩ taken pos (c :: rest) =
      takeRaw stop ⟨⟨c, pos.offset⟩ :: brackets, none⟩ (c :: taken) (pos.step c) rest := by
  rw [takeRaw_goes (goes_of_free free fun _ => isCloser_eq_false_of_isOpener opens)]
  simp [Nesting.next, opens]

/-- The scanner enters a literal. -/
theorem takeRaw_quote (free : brackets = [] → stop c = false) (opens : isQuote c = true) :
    takeRaw stop ⟨brackets, none⟩ taken pos (c :: rest) =
      takeRaw stop ⟨brackets, some ⟨c, pos.offset, false⟩⟩ (c :: taken) (pos.step c) rest := by
  obtain ⟨noOpener, noCloser⟩ := isBracket_eq_false_of_isQuote opens
  rw [takeRaw_goes (goes_of_free free fun _ => noCloser)]
  simp [Nesting.next, noOpener, noCloser, opens]

/-- The scanner goes through balanced text and has the same open as before it. -/
theorem takeRaw_balanced {s : Char → Bool} (h : Balanced s text) {brackets : List OpenBracket}
    {taken rest : List Char} {pos : Position} (top : brackets = [] → s = stop) :
    takeRaw stop ⟨brackets, none⟩ taken pos (text ++ rest) =
      takeRaw stop ⟨brackets, none⟩ (text.reverse ++ taken) (pos.after text) rest := by
  induction h generalizing brackets taken rest pos with
  | nil => rfl
  | @char s text c front free plain ih =>
    simp only [Bool.or_eq_false_iff] at plain
    rw [List.append_assoc, ih top, List.singleton_append,
      takeRaw_goes (goes_of_free (fun empty => top empty ▸ free) fun _ => plain.1.2)]
    simp [Nesting.next, plain, Position.after_append]
  | @literal s text inside quote front free opens closed ih =>
    rw [List.append_assoc, ih top, List.cons_append, takeRaw_quote (fun empty => top empty ▸ free) opens,
      List.append_assoc, takeRaw_literal closed, List.singleton_append, takeRaw_goes rfl]
    have other : quote ≠ '\\' := by
      rintro rfl
      cases opens
    simp [Nesting.next, other, Position.after_append]
  | @bracket s text inside opener closer front free opens balanced closes ih ih' =>
    rw [List.append_assoc, ih top, List.cons_append,
      takeRaw_opener (fun empty => top empty ▸ free) opens, List.append_assoc, ih' (by simp),
      List.singleton_append, takeRaw_goes rfl]
    simp [Nesting.next, isOpener_eq_false_of_isCloser closes, closes, Position.after_append]

/-- The scanner goes through a text that leaves brackets open and has just these open. -/
theorem LeavesOpen.takeRaw_eq (h : LeavesOpen stop start brackets read) {rest : List Char} :
    takeRaw stop {} [] start (read ++ rest) =
      takeRaw stop ⟨brackets, none⟩ read.reverse (start.after read) rest := by
  induction h generalizing rest with
  | level balanced =>
    rw [takeRaw_balanced balanced fun _ => rfl, List.append_nil]
  | bracket front free opens balanced ih =>
    rw [List.append_assoc, ih, List.cons_append, takeRaw_opener free opens,
      takeRaw_balanced balanced (by simp)]
    simp [Position.after_append]

end Through

/-- Balanced text is taken as a whole where it may end. -/
theorem Balanced.takeRaw_eq {rest : List Char} (h : Balanced stop text) (ends : EndsBefore stop rest) :
    takeRaw stop {} [] start (text ++ rest) = .ok (text, rest, start.after text) := by
  rw [(LeavesOpen.level h).takeRaw_eq]
  cases rest with
  | nil =>
    rw [takeRaw, List.reverse_reverse]
    rfl
  | cons c rest =>
    have stops : (Nesting.mk [] none).stopsAt stop c = true := by
      simpa [Nesting.stopsAt, EndsBefore] using ends
    rw [takeRaw, if_pos stops, List.reverse_reverse]

/-- The scanner fails with the error that an unfinished text makes. -/
theorem Unfinished.takeRaw_eq {e : ReadError} (h : Unfinished stop start text e) :
    takeRaw stop {} [] start text = .error e := by
  cases h with
  | @literal brackets front inside quote escaped whole opened free opens unclosed =>
    have through : takeRaw stop ⟨brackets, some ⟨quote, (start.after front).offset, false⟩⟩
        (quote :: front.reverse) ((start.after front).step quote) (inside ++ []) = _ :=
      takeRaw_literal unclosed
    rw [List.append_nil] at through
    rw [whole, opened.takeRaw_eq, takeRaw_quote free opens, through, takeRaw, Position.after_append]
    rfl
  | @bracket innermost outer opened =>
    have through : takeRaw stop {} [] start (text ++ []) = _ := opened.takeRaw_eq
    rw [List.append_nil] at through
    rw [through, takeRaw]
    rfl

/-- No balanced text at the start of a text goes further than the one that ends where it may. -/
theorem Balanced.isPrefix {front rest more : List Char} (h : Balanced stop front)
    (ends : EndsBefore stop rest) (k : Balanced stop text) (same : text ++ more = front ++ rest) :
    text <+: front := by
  rcases List.append_eq_append_iff.1 same with ⟨between, rfl, -⟩ | ⟨between, rfl, rfl⟩
  · exact List.prefix_append _ _
  · -- The longer text is taken as a whole, and up to where the shorter one ends.
    have short : EndsBefore stop between := by
      cases between with
      | nil => nofun
      | cons c between => simpa [EndsBefore] using ends
    have one : takeRaw stop {} [] {} (front ++ between) = .ok (front, between, _) := h.takeRaw_eq short
    have whole : takeRaw stop {} [] {} (front ++ between ++ []) = .ok (front ++ between, [], _) :=
      k.takeRaw_eq nofun
    rw [List.append_nil, one] at whole
    have taken : front = front ++ between := congrArg Prod.fst (Except.ok.inj whole)
    exact ⟨[], (List.append_nil _).trans taken.symm⟩

/-- Raw text is balanced up to where it may end, or it is unfinished. -/
theorem Reader.rawText_cases (stop : Char → Bool) (c : Cursor) :
    (∃ read rest, c.rest = read ++ rest ∧ Balanced stop read ∧ EndsBefore stop rest ∧
      Reader.rawText stop c = .ok (String.ofList (Text.trim read), c.moveOver read rest)) ∨
    ∃ e, Reader.rawText stop c = .error e ∧ Unfinished stop c.pos c.rest e := by
  have begins : Nesting.Describes stop c.pos {} [] := .level .nil
  rcases takeRaw_cases begins c.rest with ⟨read, rest, pos, taken, whole, holds⟩ | ⟨e, failed, unclosed⟩
  · have taken' : takeRaw stop {} [] c.pos c.rest = .ok (read, rest, pos) := taken
    exact .inl ⟨read, rest, whole, holds.1, holds.2, by rw [rawText, taken']⟩
  · have failed' : takeRaw stop {} [] c.pos c.rest = .error e := failed
    exact .inr ⟨e, by rw [rawText, failed'], unclosed⟩

theorem Reader.rawText_eq_ok {r : String} {c d : Cursor} :
    Reader.rawText stop c = .ok (r, d) ↔
      ∃ read rest, c.rest = read ++ rest ∧ Balanced stop read ∧ EndsBefore stop rest ∧
        r = String.ofList (Text.trim read) ∧ d = c.moveOver read rest := by
  constructor
  · intro run
    rcases Reader.rawText_cases stop c with ⟨read, rest, whole, balanced, ends, taken⟩ | ⟨e, failed, -⟩
    · rw [taken] at run
      cases run
      exact ⟨read, rest, whole, balanced, ends, rfl, rfl⟩
    · rw [failed] at run
      cases run
  · rintro ⟨read, rest, whole, balanced, ends, rfl, rfl⟩
    rw [rawText, whole, balanced.takeRaw_eq ends]

theorem Reader.rawText_eq_error {e : ReadError} {c : Cursor} :
    Reader.rawText stop c = .error e ↔ Unfinished stop c.pos c.rest e := by
  constructor
  · intro run
    rcases Reader.rawText_cases stop c with ⟨read, rest, -, -, -, taken⟩ | ⟨e', failed, unfinished⟩
    · rw [taken] at run
      cases run
    · rw [failed] at run
      cases run
      exact unfinished
  · intro unfinished
    rw [rawText, unfinished.takeRaw_eq]

/-- Commas inside of brackets and literals stop nothing, and brackets need not match in kind. -/
example : (Reader.rawText (· = ',')).run none "f(a, ',)'] , b".toList = .ok "f(a, ',)']" := by
  rfl

/-- An escaped quote does not close the literal, and the literal counts before the bracket. -/
example : (Reader.rawText (· = ',')).run none "(a, '\\'".toList =
    .error ⟨.unterminatedString, ⟨4, 7⟩⟩ := by
  rfl

end InterfaceFile
