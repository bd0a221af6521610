import InterfaceFile.Reader.Remark

/-!
# What a reader does with a given text

`Reads r x y P` says that the reader `r`, wherever it stands in front of the text `x`, succeeds,
leaves `y` unread and gives a result of which `P` holds. Readers are followed through a text one
after the other; where they stand matters for locations only.
-/

namespace InterfaceFile

/-- The text is empty or its first character is none of which `p` holds. -/
def Stops (p : Char → Bool) (x : List Char) : Prop :=
  ∀ c ∈ x.head?, p c = false

instance (p : Char → Bool) (x : List Char) : Decidable (Stops p x) :=
  match x with
  | [] => isTrue (by simp [Stops])
  | c :: _ => decidable_of_iff (p c = false) (by simp [Stops])

namespace Stops

variable {p q : Char → Bool} {c : Char} {x y : List Char}

@[simp]
theorem nil : Stops p [] := by simp [Stops]

@[simp]
theorem cons_iff : Stops p (c :: x) ↔ p c = false := by simp [Stops]

theorem cons (h : p c = false) : Stops p (c :: x) :=
  cons_iff.2 h

theorem mono (h : Stops p x) (sub : ∀ c, q c = true → p c = true) : Stops q x := by
  intro c first
  cases holds : q c with
  | false => rfl
  | true =>
    have := h c first
    rw [sub c holds] at this
    cases this

/-- What stands at the end of a text does not matter unless the text is empty. -/
theorem append (h : Stops p x) (nonempty : x ≠ []) : Stops p (x ++ y) := by
  cases x with
  | nil => exact absurd rfl nonempty
  | cons c x => simpa using h

theorem dropWhile_eq (h : Stops p x) : x.dropWhile p = x := by
  cases x with
  | nil => rfl
  | cons c x => rw [List.dropWhile_cons_of_neg]; simpa using h

theorem takeWhile_eq (h : Stops p x) : x.takeWhile p = [] := by
  cases x with
  | nil => rfl
  | cons c x => rw [List.takeWhile_cons_of_neg]; simpa using h

theorem dropWhile_append (h : Stops p y) (all : ∀ c ∈ x, p c = true) :
    (x ++ y).dropWhile p = y := by
  rw [List.dropWhile_append_of_pos all, h.dropWhile_eq]

theorem takeWhile_append (h : Stops p y) (all : ∀ c ∈ x, p c = true) :
    (x ++ y).takeWhile p = x := by
  rw [List.takeWhile_append_of_pos all, h.takeWhile_eq, List.append_nil]

theorem dropWhile (p : Char → Bool) (x : List Char) : Stops p (x.dropWhile p) := by
  intro c first
  have holds := List.head?_dropWhile_not p x
  rw [Option.mem_def.1 first] at holds
  simpa using holds

end Stops

namespace Reader

variable {α β σ : Type}

/-- In front of `x` the reader succeeds and leaves `y`, with a result of which `P` holds. -/
def Reads (r : Reader α) (x y : List Char) (P : α → Prop) : Prop :=
  ∀ c : Cursor, c.rest = x → ∃ a d, r c = .ok (a, d) ∧ d.rest = y ∧ P a

variable {r : Reader α} {f : α → Reader β} {x y z : List Char} {P : α → Prop} {Q : β → Prop}

theorem Reads.bind (h : Reads r x y P) (next : ∀ a, P a → Reads (f a) y z Q) :
    Reads (r >>= f) x z Q := by
  intro c start
  obtain ⟨a, d, first, rest, holds⟩ := h c start
  obtain ⟨b, e, second, rest', holds'⟩ := next a holds d rest
  have same : (r >>= f) c = f a d := by simp [Bind.bind, first]
  exact ⟨b, e, same.trans second, rest', holds'⟩

/-- The next reader after a known result. -/
theorem Reads.followedBy {a : α} (h : Reads r x y (· = a)) (next : Reads (f a) y z Q) :
    Reads (r >>= f) x z Q :=
  h.bind fun _ same => same ▸ next

theorem Reads.mono {P' : α → Prop} (h : Reads r x y P) (sub : ∀ a, P a → P' a) :
    Reads r x y P' := by
  intro c start
  obtain ⟨a, d, run, rest, holds⟩ := h c start
  exact ⟨a, d, run, rest, sub a holds⟩

/-- In front of `x` the reader does what `r'` does in front of `y`. -/
def GoesOn (r : Reader α) (x : List Char) (r' : Reader α) (y : List Char) : Prop :=
  ∀ c : Cursor, c.rest = x → ∃ d : Cursor, d.rest = y ∧ r c = r' d

theorem GoesOn.trans {r' r'' : Reader α} (h : GoesOn r x r' y) (h' : GoesOn r' y r'' z) :
    GoesOn r x r'' z := by
  intro c start
  obtain ⟨d, rest, same⟩ := h c start
  obtain ⟨e, rest', same'⟩ := h' d rest
  exact ⟨e, rest', same.trans same'⟩

theorem GoesOn.reads {r' : Reader α} (h : GoesOn r x r' y) (read : Reads r' y z P) :
    Reads r x z P := by
  intro c start
  obtain ⟨d, rest, same⟩ := h c start
  rw [same]
  exact read d rest

/-- After a known result only the next reader matters. -/
theorem Reads.goesOn {a : α} (h : Reads r x y (· = a)) : GoesOn (r >>= f) x (f a) y := by
  intro c start
  obtain ⟨_, d, first, rest, rfl⟩ := h c start
  exact ⟨d, rest, by simp [Bind.bind, first]⟩

theorem reads_pure {a : α} (h : P a) : Reads (pure a) x x P :=
  fun c start => ⟨a, c, rfl, start, h⟩

theorem reads_here : Reads here x x fun _ => True :=
  fun c start => ⟨c.pos, c, rfl, start, trivial⟩

theorem reads_locate (start stop : Position) : Reads (locate start stop) x x fun _ => True :=
  fun c first => ⟨_, c, rfl, first, trivial⟩

theorem reads_look (f : List Char → α) : Reads (look f) x x (· = f x) :=
  fun c start => ⟨f c.rest, c, rfl, start, by rw [start]⟩

theorem reads_atEnd_no (nonempty : x ≠ []) : Reads atEnd x x (· = false) :=
  (reads_look _).mono fun _ same => by
    cases x with
    | nil => exact absurd rfl nonempty
    | cons c x => exact same

theorem reads_readWhile (p : Char → Bool) :
    Reads (readWhile p) x (x.dropWhile p) (· = x.takeWhile p) := by
  intro c start
  exact ⟨_, _, rfl, by rw [Cursor.moveOver, start], by rw [start]⟩

theorem reads_skipSpaces : Reads skipSpaces x (x.dropWhile isLineSpace) (· = ()) :=
  (reads_readWhile _).bind fun _ _ => reads_pure rfl

theorem reads_skipBlanks : Reads skipBlanks x (x.dropWhile Text.isBlank) (· = ()) :=
  (reads_readWhile _).bind fun _ _ => reads_pure rfl

theorem reads_skipSpaces_stay (h : Stops isLineSpace x) : Reads skipSpaces x x (· = ()) := by
  have := reads_skipSpaces (x := x)
  rwa [h.dropWhile_eq] at this

theorem reads_skipSpaces_one (h : Stops isLineSpace x) : Reads skipSpaces (' ' :: x) x (· = ()) := by
  have := reads_skipSpaces (x := ' ' :: x)
  rwa [List.dropWhile_cons_of_pos rfl, h.dropWhile_eq] at this

theorem reads_skipBlanks_stay (h : Stops Text.isBlank x) : Reads skipBlanks x x (· = ()) := by
  have := reads_skipBlanks (x := x)
  rwa [h.dropWhile_eq] at this

theorem reads_eat (ch : Char) : Reads (eat ch) (ch :: x) x (· = true) := by
  intro c start
  refine ⟨true, c.moveOver [ch] x, ?_, rfl, rfl⟩
  rw [eat, start]
  exact if_pos rfl

theorem reads_eat_no {ch : Char} (h : Stops (· = ch) x) : Reads (eat ch) x x (· = false) := by
  intro c start
  refine ⟨false, c, ?_, start, rfl⟩
  rw [eat, start]
  cases x with
  | nil => rfl
  | cons d x => exact if_neg (by simpa using h)

theorem reads_eatText (text : List Char) : Reads (eatText text) (text ++ x) x (· = true) := by
  intro c start
  refine ⟨true, c.moveOver text (c.rest.drop text.length), ?_, ?_, rfl⟩
  · rw [eatText, start]
    exact if_pos (List.isPrefixOf_iff_prefix.2 (List.prefix_append _ _))
  · rw [Cursor.moveOver, start, List.drop_left]

theorem reads_eatText_no {text : List Char} (h : ¬ text <+: x) :
    Reads (eatText text) x x (· = false) := by
  intro c start
  refine ⟨false, c, ?_, start, rfl⟩
  rw [eatText, start]
  exact if_neg fun begins => h (List.isPrefixOf_iff_prefix.1 begins)

theorem reads_expect (ch : Char) (expected : Expected) :
    Reads (expect ch expected) (ch :: x) x (· = ()) :=
  (reads_eat ch).followedBy (reads_pure rfl)

/-! ## Words -/

/-- The characters of a word. -/
def AllWord (w : List Char) : Prop :=
  ∀ c ∈ w, isWordChar c = true

instance (w : List Char) : Decidable (AllWord w) :=
  List.decidableBAll (fun c => isWordChar c = true) w

theorem reads_word? {meaning : List Char → List Char → Option α} {w : List Char} {a : α}
    (nonempty : w ≠ []) (all : AllWord w) (stop : Stops isWordChar x)
    (means : meaning w x = some a) : Reads (word? meaning) (w ++ x) x (· = some a) := by
  intro c start
  refine ⟨some a, c.moveOver w x, ?_, rfl, rfl⟩
  have taken : c.rest.takeWhile isWordChar = w := by rw [start, stop.takeWhile_append all]
  have left : c.rest.dropWhile isWordChar = x := by rw [start, stop.dropWhile_append all]
  rw [word?, taken, left]
  cases w with
  | nil => exact absurd rfl nonempty
  | cons d w => simp only [means]

theorem reads_word?_no {meaning : List Char → List Char → Option α}
    (h : x.takeWhile isWordChar ≠ [] →
      meaning (x.takeWhile isWordChar) (x.dropWhile isWordChar) = none) :
    Reads (word? meaning) x x (· = none) := by
  intro c start
  refine ⟨none, c, ?_, start, rfl⟩
  rw [word?, start]
  split
  · next nonempty means =>
    rw [h (by rw [nonempty]; simp)] at means
    cases means
  · rfl

theorem reads_eatKeyword {keyword : String} (nonempty : keyword.toList ≠ [])
    (all : AllWord keyword.toList) (stop : Stops isWordChar x) :
    Reads (eatKeyword keyword) (keyword.toList ++ x) x (· = true) :=
  (reads_word? nonempty all stop (if_pos rfl)).followedBy (reads_pure rfl)

theorem reads_eatKeyword_no {keyword : String} (h : x.takeWhile isWordChar ≠ keyword.toList) :
    Reads (eatKeyword keyword) x x (· = false) :=
  (reads_word?_no fun _ => if_neg h).followedBy (reads_pure rfl)

theorem reads_expectKeyword {keyword : String} (expected : Expected)
    (nonempty : keyword.toList ≠ []) (all : AllWord keyword.toList) (stop : Stops isWordChar x) :
    Reads (expectKeyword keyword expected) (keyword.toList ++ x) x (· = ()) :=
  (reads_eatKeyword nonempty all stop).followedBy (reads_pure rfl)

/-- `end`, which has to come next. -/
theorem reads_end (stop : Stops isWordChar x) :
    Reads (expectKeyword "end" .endKeyword) ('e' :: 'n' :: 'd' :: x) x (· = ()) :=
  reads_expectKeyword .endKeyword (by decide) (by decide) stop

/-! ## Loops -/

variable {step : σ → Reader (Turn σ β)} {progress : ∀ s, Moves Turn.IsAgain (step s)} {s : σ}

/-- A loop that goes round again. -/
theorem Reads.again {S : σ → Prop} (first : Reads (step s) x y fun t => ∃ s', t = .again s' ∧ S s')
    (rest : ∀ s', S s' → Reads (loop step progress s') y z Q) :
    Reads (loop step progress s) x z Q := by
  intro c start
  obtain ⟨t, d, run, left, s', rfl, holds⟩ := first c start
  obtain ⟨b, e, run', left', holds'⟩ := rest s' holds d left
  refine ⟨b, e, ?_, left', holds'⟩
  rw [loop, loopFrom]
  split
  · next failed => rw [run] at failed; cases failed
  · next ended => rw [run] at ended; cases ended
  · next round =>
    rw [run] at round
    cases round
    exact run'

/-- A loop that goes round again from a known state. -/
theorem Reads.againWith {s' : σ} (first : Reads (step s) x y (· = .again s'))
    (rest : Reads (loop step progress s') y z Q) : Reads (loop step progress s) x z Q :=
  Reads.again (first.mono fun _ same => ⟨s', same, rfl⟩) fun _ same => same ▸ rest

/-- A loop that ends. -/
theorem Reads.done (last : Reads (step s) x y fun t => ∃ b, t = .done b ∧ Q b) :
    Reads (loop step progress s) x y Q := by
  intro c start
  obtain ⟨t, d, run, left, b, rfl, holds⟩ := last c start
  refine ⟨b, d, ?_, left, holds⟩
  rw [loop, loopFrom]
  split
  · next failed => rw [run] at failed; cases failed
  · next ended => rw [run] at ended; cases ended; rfl
  · next round => rw [run] at round; cases round

end Reader

end InterfaceFile
