import InterfaceFile.Proofs.Reader.Gives
import InterfaceFile.Proofs.Reader.Offsets

/-!
# Errors that point at what was read

A reader that stops with an error says which bytes show it. They begin and end where the reading came
to, or at the end of a word that stands there: `Points` says so of the outcome of a reader at one
cursor, together with what holds of a result, and goes through the readers one after the other.
-/

namespace InterfaceFile

variable {α β σ : Type} {o b c d : Cursor} {p : Position}

/-! ## Positions that were noted -/

/-- The position of a cursor that the reading from `o` on came to before it came to `c`. -/
def Cursor.Passed (o c : Cursor) (p : Position) : Prop :=
  ∃ b, o.Reaches b ∧ b.Reaches c ∧ b.pos = p

namespace Cursor

theorem Reaches.passed (h : o.Reaches c) : o.Passed c c.pos :=
  ⟨c, h, .refl c, rfl⟩

theorem Passed.forward (h : o.Passed c p) (k : c.Reaches d) : o.Passed d p := by
  obtain ⟨b, start, before, same⟩ := h
  exact ⟨b, start, before.trans k, same⟩

theorem Passed.shows (h : o.Passed c p) : o.Shows (p.spanTo c.pos) := by
  obtain ⟨b, start, before, rfl⟩ := h
  exact start.shows before

end Cursor

namespace Reader

/-! ## Outcomes -/

/-- What the reader `r` comes to at `c`: a result of which `Q` holds, further on in the text, or an error
    that points into the text read since `o`. -/
structure Points (o : Cursor) (r : Reader α) (c : Cursor) (Q : α → Cursor → Prop) : Prop where
  result : ∀ a d, r c = .ok (a, d) → c.Reaches d ∧ Q a d
  error : ∀ e, r c = .error e → o.Shows e.span

/-- Wherever the reader is started after `o`, its errors point into the text and `P` holds of its
    results. -/
def Pointed (o : Cursor) (r : Reader α) (P : α → Prop) : Prop :=
  ∀ c, o.Reaches c → Points o r c fun a _ => P a

variable {r s : Reader α} {f : α → Reader β} {P : α → Cursor → Prop} {Q : β → Cursor → Prop}

theorem bind_eq_error {e : ReadError} :
    (r >>= f) c = .error e ↔ r c = .error e ∨ ∃ a d, r c = .ok (a, d) ∧ f a d = .error e := by
  rw [bind_eq]
  cases r c with
  | error e' => simp [Except.bind]
  | ok s =>
    constructor
    · exact fun run => .inr ⟨s.1, s.2, rfl, run⟩
    · rintro (⟨⟨⟩⟩ | ⟨_, _, ⟨⟩, run⟩)
      exact run

theorem Points.mono {P' : α → Cursor → Prop} (h : Points o r c P)
    (sub : ∀ a d, c.Reaches d → P a d → P' a d) : Points o r c P' where
  result a d run := ⟨(h.result a d run).1, sub a d (h.result a d run).1 (h.result a d run).2⟩
  error := h.error

/-- What the text in front of the reader says of a result holds, too. -/
theorem Points.gives {R : α → List Char → Prop} (h : Points o r c P) (given : Gives r c.rest R) :
    Points o r c fun a d => P a d ∧ R a d.rest where
  result a d run := ⟨(h.result a d run).1, (h.result a d run).2, given c a d rfl run⟩
  error := h.error

theorem Points.bind (h : Points o r c P)
    (next : ∀ a d, c.Reaches d → P a d → Points o (f a) d Q) : Points o (r >>= f) c Q where
  result a e run := by
    obtain ⟨b, d, first, second⟩ := bind_eq_ok.1 run
    obtain ⟨forward, holds⟩ := h.result b d first
    obtain ⟨further, holds'⟩ := (next b d forward holds).result a e second
    exact ⟨forward.trans further, holds'⟩
  error e run := by
    rcases bind_eq_error.1 run with failed | ⟨a, d, first, failed⟩
    · exact h.error e failed
    · exact (next a d (h.result a d first).1 (h.result a d first).2).error e failed

theorem Points.ite {cond : Prop} [Decidable cond] (yes : cond → Points o r c P)
    (no : ¬ cond → Points o s c P) : Points o (if cond then r else s) c P := by
  split
  · exact yes ‹_›
  · exact no ‹_›

theorem points_pure {a : α} (h : P a c) : Points o (pure a : Reader α) c P where
  result b d run := by
    cases run
    exact ⟨.refl c, h⟩
  error e run := nomatch run

theorem points_fail {kind : ReadErrorKind} {span : Span} (h : o.Shows span) :
    Points o (fail kind span : Reader α) c P where
  result a d run := nomatch run
  error e run := by
    cases run
    exact h

/-- A reader that cannot fail goes forward. -/
theorem points_of_moves {p : α → Prop} (moves : Moves p r) (total : ∀ e, r c ≠ .error e)
    (holds : ∀ a d, r c = .ok (a, d) → P a d) : Points o r c P where
  result a d run := ⟨(moves c a d run).1, holds a d run⟩
  error e run := absurd run (total e)

section Pointed

variable {P : α → Prop} {Q : β → Prop}

theorem Pointed.bind (h : Pointed o r P) (next : ∀ a, P a → Pointed o (f a) Q) :
    Pointed o (r >>= f) Q :=
  fun c reached => (h c reached).bind fun a d forward holds =>
    next a holds d (reached.trans forward)

/-- What holds of the first result does not matter. -/
theorem Pointed.andThen (h : Pointed o r P) (next : ∀ a, Pointed o (f a) Q) :
    Pointed o (r >>= f) Q :=
  h.bind fun a _ => next a

theorem Pointed.ite {cond : Prop} [Decidable cond] (yes : Pointed o r P) (no : Pointed o s P) :
    Pointed o (if cond then r else s) P :=
  fun c reached => .ite (fun _ => yes c reached) fun _ => no c reached

theorem pointed_pure {a : α} (h : P a) : Pointed o (pure a : Reader α) P :=
  fun _ _ => points_pure h

theorem pointed_fail {kind : ReadErrorKind} {span : Span} (h : o.Shows span) :
    Pointed o (fail kind span : Reader α) P :=
  fun _ _ => points_fail h

theorem pointed_of_moves {p : α → Prop} (moves : Moves p r) (total : ∀ c e, r c ≠ .error e) :
    Pointed o r fun _ => True :=
  fun c _ => points_of_moves moves (total c) fun _ _ _ => trivial

end Pointed

/-! ## Single readers -/

theorem points_here : Points o here c fun p d => p = c.pos ∧ d = c :=
  points_of_moves forward_here nofun fun a d run => by
    cases run
    exact ⟨rfl, rfl⟩

theorem points_locate (start stop : Position) : Points o (locate start stop) c fun l d =>
    l = ⟨c.file, start.place, stop.place⟩ ∧ d = c :=
  points_of_moves (forward_locate _ _) nofun fun a d run => by
    cases run
    exact ⟨rfl, rfl⟩

theorem points_look (g : List Char → α) : Points o (look g) c fun a d => a = g c.rest ∧ d = c :=
  points_of_moves (forward_look _) nofun fun a d run => by
    cases run
    exact ⟨rfl, rfl⟩

theorem pointed_look (g : List Char → α) : Pointed o (look g) fun _ => True :=
  pointed_of_moves (forward_look _) nofun

theorem pointed_readWhile (q : Char → Bool) : Pointed o (readWhile q) fun _ => True :=
  pointed_of_moves (forward_readWhile _) nofun

theorem pointed_skipSpaces : Pointed o skipSpaces fun _ => True :=
  (pointed_readWhile _).andThen fun _ => pointed_pure trivial

theorem pointed_skipBlanks : Pointed o skipBlanks fun _ => True :=
  (pointed_readWhile _).andThen fun _ => pointed_pure trivial

/-- A character that is read is one step of the position; otherwise nothing is read. -/
theorem points_eat (ch : Char) : Points o (eat ch) c fun a d =>
    if a = true then c.rest = ch :: d.rest ∧ d.pos = c.pos.step ch
    else d = c ∧ Stops (· = ch) c.rest := by
  refine points_of_moves (moves_eat ch) (fun e => ?_) fun a d run => ?_
  · unfold eat
    split
    · split <;> nofun
    · nofun
  · unfold eat at run
    split at run
    · next text =>
      split at run
      · next same =>
        cases run
        exact ⟨same ▸ text, same ▸ rfl⟩
      · next other =>
        cases run
        exact ⟨rfl, text ▸ .cons (by simpa using other)⟩
    · next text =>
      cases run
      exact ⟨rfl, text ▸ .nil⟩

theorem pointed_eat (ch : Char) : Pointed o (eat ch) fun _ => True :=
  fun _ _ => (points_eat ch).mono fun _ _ _ _ => trivial

theorem pointed_eatText {text : List Char} (nonempty : text ≠ []) :
    Pointed o (eatText text) fun _ => True := by
  refine pointed_of_moves (moves_eatText nonempty) fun c e => ?_
  unfold eatText
  split <;> nofun

theorem points_word? (meaning : List Char → List Char → Option α) :
    Points o (word? meaning) c fun a d => a = none → d = c := by
  refine points_of_moves (moves_word? meaning) (fun e => ?_) fun a d run none => ?_
  · unfold word?
    dsimp only
    split <;> nofun
  · unfold word? at run
    dsimp only at run
    split at run
    · cases run
      cases none
    · cases run
      rfl

theorem pointed_word? (meaning : List Char → List Char → Option α) :
    Pointed o (word? meaning) fun _ => True :=
  fun _ _ => (points_word? meaning).mono fun _ _ _ _ => trivial

theorem points_eatKeyword (keyword : String) :
    Points o (eatKeyword keyword) c fun a d => a = false → d = c :=
  (points_word? _).bind fun _ _ _ same => points_pure fun none =>
    same (Option.not_isSome_iff_eq_none.1 (by simp [none]))

theorem pointed_eatKeyword (keyword : String) :
    Pointed o (eatKeyword keyword) fun _ => True :=
  fun _ _ => (points_eatKeyword keyword).mono fun _ _ _ _ => trivial

theorem pointed_identifier? : Pointed o identifier? fun _ => True :=
  pointed_word? _

/-- What is found instead of something else stands right here. -/
theorem shows_foundAt (reached : o.Reaches c) : o.Shows (foundAt c).2 := by
  unfold foundAt
  split
  · exact reached.shows_point
  · exact reached.shows_point
  · next ch rest _ text =>
    have begins : ∃ more, c.rest =
        (if Text.isBlank ch then [ch] else ch :: rest.takeWhile fun d => !Text.isBlank d) ++ more := by
      rw [text]
      split
      · exact ⟨rest, rfl⟩
      · exact ⟨rest.dropWhile fun d => !Text.isBlank d, by
          rw [List.cons_append, List.takeWhile_append_dropWhile]⟩
    obtain ⟨more, whole⟩ := begins
    exact reached.shows (Cursor.reaches_moveOver whole)

theorem points_unexpected (expected : Expected) (reached : o.Reaches c) :
    Points o (unexpected expected : Reader α) c P where
  result a d run := nomatch run
  error e run := by
    cases run
    exact shows_foundAt reached

theorem pointed_unexpected {P : α → Prop} (expected : Expected) :
    Pointed o (unexpected expected : Reader α) P :=
  fun _ reached => points_unexpected _ reached

theorem points_expect (ch : Char) (expected : Expected) (reached : o.Reaches c) :
    Points o (expect ch expected) c fun _ d => d.pos = c.pos.step ch :=
  (points_eat ch).bind fun a d forward read => .ite
    (fun found => points_pure (by rw [if_pos found] at read; exact read.2))
    fun _ => points_unexpected _ (reached.trans forward)

theorem pointed_expect (ch : Char) (expected : Expected) :
    Pointed o (expect ch expected) fun _ => True :=
  (pointed_eat ch).andThen fun _ => .ite (pointed_pure trivial) (pointed_unexpected _)

theorem pointed_expectKeyword (keyword : String) (expected : Expected) :
    Pointed o (expectKeyword keyword expected) fun _ => True :=
  (pointed_eatKeyword keyword).andThen fun _ => .ite (pointed_pure trivial) (pointed_unexpected _)

/-! ## Loops -/

/-- What a turn of a loop keeps or gives, and where. -/
def TurnTo (I : σ → Cursor → Prop) (Q : β → Cursor → Prop) : Turn σ β → Cursor → Prop
  | .again s, d => I s d
  | .done b, d => Q b d

variable {step : σ → Reader (Turn σ β)} {progress : ∀ s, Moves Turn.IsAgain (step s)} {s : σ}

/-- What each turn of a loop keeps, the loop keeps to its end. -/
theorem points_loop {I : σ → Cursor → Prop}
    (turn : ∀ s c, o.Reaches c → I s c → Points o (step s) c (TurnTo I Q))
    (reached : o.Reaches c) (h : I s c) : Points o (loop step progress s) c Q := by
  refine ⟨fun b e run => ?_, fun e run => ?_⟩
  · change loopFrom step progress s c = .ok (b, e) at run
    fun_induction loopFrom step progress s c with
    | case1 => cases run
    | case2 s c b' d first =>
      cases run
      exact (turn s c reached h).result _ _ first
    | case3 s c t d first ih =>
      obtain ⟨forward, kept⟩ := (turn s c reached h).result _ _ first
      obtain ⟨further, holds⟩ := ih (reached.trans forward) kept run
      exact ⟨forward.trans further, holds⟩
  · change loopFrom step progress s c = .error e at run
    fun_induction loopFrom step progress s c with
    | case1 s c e' first =>
      cases run
      exact (turn s c reached h).error _ first
    | case2 => cases run
    | case3 s c t d first ih =>
      obtain ⟨forward, kept⟩ := (turn s c reached h).result _ _ first
      exact ih (reached.trans forward) kept run

theorem pointed_loop (turn : ∀ s, Pointed o (step s) fun _ => True) (s : σ) :
    Pointed o (loop step progress s) fun _ => True := by
  refine fun c reached => points_loop (I := fun _ _ => True) (fun s c reached _ => ?_) reached trivial
  refine (turn s c reached).mono fun t d _ _ => ?_
  cases t <;> trivial

end Reader

end InterfaceFile
