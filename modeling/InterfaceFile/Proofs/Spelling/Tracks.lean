import InterfaceFile.Proofs.Spelling.Spellings

/-!
# Two runs of a reader

A reader is run on two spellings of a text. `Tracks` says that the two runs fail together, or succeed
together with related results and related texts left to read. If the second text goes on after the
first one, then the first run may miss what the second one finds: it may fail where the first text
ends, and some readers may come to that end without failing. Of such readers `Tracks` says so, and what
comes after them has to fail there.
-/

namespace InterfaceFile

namespace Respelling

/-- The outcomes of two runs: `R` holds of the results, or both fail. If the second text goes on, then
    the first run may fail alone, or `ends` holds of its result. -/
inductive Agree (m : Respelling) {γ : Type} (ends : γ → Prop) (R : γ → γ → Prop) :
    Except ReadError γ → Except ReadError γ → Prop
  | ok {a a' : γ} (related : R a a') : Agree m ends R (.ok a) (.ok a')
  | error {e e' : ReadError} : Agree m ends R (.error e) (.error e')
  | stopped {e : ReadError} {o' : Except ReadError γ} (more : m.more.isSome = true) :
      Agree m ends R (.error e) o'
  | lost {a : γ} {o' : Except ReadError γ} (more : m.more.isSome = true) (ended : ends a) :
      Agree m ends R (.ok a) o'

theorem Agree.mono {m : Respelling} {γ : Type} {ends ends' : γ → Prop} {R R' : γ → γ → Prop}
    {o o' : Except ReadError γ} (h : m.Agree ends R o o') (sub : ∀ a, ends a → ends' a)
    (sub' : ∀ a a', R a a' → R' a a') : m.Agree ends' R' o o' := by
  cases h with
  | ok related => exact .ok (sub' _ _ related)
  | error => exact .error
  | stopped more => exact .stopped more
  | lost more ended => exact .lost more (sub _ ended)

/-- The results are related, and so is what is left. -/
def Leaves {α : Type} (m : Respelling) (R : α → α → Prop) :
    α → α → List Char → List Char → Prop :=
  fun a a' y y' => R a a' ∧ m.Spells y y'

/-- What is left after a newline has been read in both texts. -/
def Follows (m : Respelling) (y y' : List Char) : Prop :=
  m.Spells y y' ∨ y = [] ∧ m.more = some y'

end Respelling

namespace Reader

variable {α β σ : Type} {m : Respelling} {loses loses' : Prop} {x x' : List Char}

/-- In front of `x` and `x'` the two readers give related results. `loses` says whether the first one may
    come to the end of its text where the second text goes on. -/
def Tracks (m : Respelling) (loses : Prop) (r r' : Reader α) (x x' : List Char)
    (P : α → α → List Char → List Char → Prop) : Prop :=
  ∀ c c', c.rest = x → c'.rest = x' →
    m.Agree (fun s => loses ∧ s.2.rest = []) (fun s s' => P s.1 s'.1 s.2.rest s'.2.rest) (r c) (r' c')

/-- At the end of a text the reader fails, unless it may lose the text. -/
def Shuts (loses : Prop) (r : Reader α) : Prop :=
  Gives r [] fun _ y => loses ∧ y = []

section

variable {r r' : Reader α} {f f' : α → Reader β} {P : α → α → List Char → List Char → Prop}
  {Q : β → β → List Char → List Char → Prop}

theorem Tracks.bind (h : Tracks m loses r r' x x' P)
    (next : ∀ a a' y y', P a a' y y' → Tracks m loses' (f a) (f' a') y y' Q)
    (after : loses → ∀ a, Shuts loses' (f a)) : Tracks m loses' (r >>= f) (r' >>= f') x x' Q := by
  intro c c' start start'
  have first := h c c' start start'
  rw [bind_eq, bind_eq]
  generalize r c = o, r' c' = o' at first
  cases first with
  | @ok s s' related => exact next s.1 s'.1 _ _ related s.2 s'.2 rfl rfl
  | error => exact .error
  | stopped more => exact .stopped more
  | @lost s o' more ended =>
    -- What the second run does does not matter any more.
    show m.Agree _ _ (f s.1 s.2) _
    cases second : f s.1 s.2 with
    | error e => exact .stopped more
    | ok t => exact .lost more (after ended.1 s.1 s.2 t.1 t.2 ended.2 second)

/-- The first reader loses nothing. -/
theorem Tracks.andThen (h : Tracks m False r r' x x' P)
    (next : ∀ a a' y y', P a a' y y' → Tracks m loses (f a) (f' a') y y' Q) :
    Tracks m loses (r >>= f) (r' >>= f') x x' Q :=
  h.bind next False.elim

theorem Tracks.mono {P' : α → α → List Char → List Char → Prop} (h : Tracks m loses r r' x x' P)
    (weaker : loses → loses') (sub : ∀ a a' y y', P a a' y y' → P' a a' y y') :
    Tracks m loses' r r' x x' P' :=
  fun c c' start start' => (h c c' start start').mono (fun _ ended => ⟨weaker ended.1, ended.2⟩)
    fun _ _ related => sub _ _ _ _ related

/-- If the first reader succeeds and loses nothing, then the second one succeeds. -/
theorem Tracks.second (h : Tracks m loses r r' x x' P) {c c' d : Cursor} {a : α} (start : c.rest = x)
    (start' : c'.rest = x') (run : r c = .ok (a, d)) (kept : loses → d.rest ≠ []) :
    ∃ a' d', r' c' = .ok (a', d') ∧ P a a' d.rest d'.rest := by
  have outcome := h c c' start start'
  rw [run] at outcome
  generalize r' c' = o' at outcome
  cases outcome with
  | @ok _ s' related => exact ⟨s'.1, s'.2, rfl, related⟩
  | lost _ ended => exact absurd ended.2 (kept ended.1)

theorem Tracks.ite {cond cond' : Prop} [Decidable cond] [Decidable cond'] {s s' : Reader α}
    (same : cond' ↔ cond) (yes : cond → Tracks m loses r r' x x' P)
    (no : ¬ cond → Tracks m loses s s' x x' P) :
    Tracks m loses (if cond then r else s) (if cond' then r' else s') x x' P := by
  by_cases holds : cond
  · rw [if_pos holds, if_pos (same.2 holds)]
    exact yes holds
  · rw [if_neg holds, if_neg (mt same.1 holds)]
    exact no holds

theorem tracks_pure {a a' : α} (h : P a a' x x') : Tracks m loses (pure a) (pure a') x x' P := by
  rintro c c' rfl rfl
  exact .ok h

theorem tracks_fail (kind kind' : ReadErrorKind) (span span' : Span) :
    Tracks m loses (fail kind span) (fail kind' span') x x' P :=
  fun _ _ _ _ => .error

theorem tracks_unexpected (expected expected' : Expected) :
    Tracks m loses (unexpected expected) (unexpected expected') x x' P :=
  fun _ _ _ _ => .error

end

section

variable {f f' : α → Reader β} {Q : β → β → List Char → List Char → Prop}

/-- Where the readers stand does not matter. -/
theorem tracks_here {f f' : Position → Reader β}
    (next : ∀ p p', Tracks m loses (f p) (f' p') x x' Q) :
    Tracks m loses (here >>= f) (here >>= f') x x' Q :=
  fun c c' start start' => next c.pos c'.pos c c' start start'

theorem tracks_locate {f f' : Location → Reader β} (start start' stop stop' : Position)
    (next : ∀ l l', Tracks m loses (f l) (f' l') x x' Q) :
    Tracks m loses (locate start stop >>= f) (locate start' stop' >>= f') x x' Q :=
  fun c c' first first' => next _ _ c c' first first'

/-- Both readers see the same. -/
theorem tracks_look {g : List Char → α} (same : g x' = g x)
    (next : Tracks m loses (f (g x)) (f' (g x)) x x' Q) :
    Tracks m loses (look g >>= f) (look g >>= f') x x' Q := by
  rintro c c' rfl rfl
  have run : (look g >>= f') c' = f' (g c.rest) c' := by rw [← same]; rfl
  rw [run]
  exact next c c' rfl rfl

end

/-! ## Tests -/

/-- The outcomes of a test: something is read in both texts, or nothing in either. -/
inductive Tested (S : List Char → List Char → Prop) (x x' : List Char) :
    Bool → Bool → List Char → List Char → Prop
  | yes {y y' : List Char} (left : S y y') : Tested S x x' true true y y'
  | no : Tested S x x' false false x x'

/-- The same for a reader of something optional. -/
inductive Offered (R : α → α → Prop) (S : List Char → List Char → Prop) (x x' : List Char) :
    Option α → Option α → List Char → List Char → Prop
  | some {a a' : α} {y y' : List Char} (related : R a a') (left : S y y') :
      Offered R S x x' (some a) (some a') y y'
  | none : Offered R S x x' none none x x'

section

variable {Q : β → β → List Char → List Char → Prop} {S : List Char → List Char → Prop}

theorem Tracks.branch {test test' : Reader Bool} {f f' : Bool → Reader β}
    (h : Tracks m False test test' x x' (Tested S x x'))
    (yes : ∀ y y', S y y' → Tracks m loses (f true) (f' true) y y' Q)
    (no : Tracks m loses (f false) (f' false) x x' Q) :
    Tracks m loses (test >>= f) (test' >>= f') x x' Q := by
  refine h.andThen fun b b' y y' tested => ?_
  cases tested with
  | yes left => exact yes y y' left
  | no => exact no

theorem Tracks.option {R : α → α → Prop} {offer offer' : Reader (Option α)}
    {f f' : Option α → Reader β} (h : Tracks m False offer offer' x x' (Offered R S x x'))
    (yes : ∀ a a' y y', R a a' → S y y' → Tracks m loses (f (some a)) (f' (some a')) y y' Q)
    (no : Tracks m loses (f none) (f' none) x x' Q) :
    Tracks m loses (offer >>= f) (offer' >>= f') x x' Q := by
  refine h.andThen fun o o' y y' offered => ?_
  cases offered with
  | some related left => exact yes _ _ y y' related left
  | none => exact no

end

/-! ## Characters and words -/

theorem tracks_readWhile {p : Char → Bool} (newline : p '\n' = false) (ret : p '\r' = false)
    (h : m.Spells x x') :
    Tracks m False (readWhile p) (readWhile p) x x' (m.Leaves Eq) := by
  rintro c c' rfl rfl
  exact .ok ⟨(h.run newline ret).1.symm, (h.run newline ret).2⟩

theorem tracks_skipSpaces (h : m.Spells x x') :
    Tracks m False skipSpaces skipSpaces x x' fun _ _ y y' => m.Aligned y y' := by
  rintro c c' rfl rfl
  exact .ok (h.skip_line rfl rfl)

theorem tracks_skipBlanks (h : m.Spells x x') :
    Tracks m True skipBlanks skipBlanks x x' fun _ _ y y' => m.Aligned y y' := by
  rintro c c' rfl rfl
  rcases h.skip (p := Text.isBlank) rfl with aligned | ⟨more, none⟩
  · exact .ok aligned
  · exact .lost more ⟨trivial, none⟩

theorem tracks_eat {ch : Char} (inLine : isLineEnd ch = false) (h : m.Spells x x') :
    Tracks m False (eat ch) (eat ch) x x' (Tested m.Spells x x') := by
  obtain ⟨newline, ret⟩ := ne_of_isLineEnd inLine
  intro c c' start start'
  rw [eat, eat, start, start']
  cases h with
  | nil => exact .ok (by rw [start, start']; exact .no)
  | last =>
    dsimp only
    rw [if_neg newline, if_neg newline]
    exact .ok (by rw [start, start']; exact .no)
  | newline =>
    dsimp only
    rw [if_neg newline, if_neg ret]
    exact .ok (by rw [start, start']; exact .no)
  | cons _ rest =>
    dsimp only
    split
    · exact .ok (.yes rest)
    · exact .ok (by rw [start, start']; exact .no)

theorem tracks_eat_newline (h : m.Aligned x x') :
    Tracks m False (eat '\n') (eat '\n') x x' (Tested m.Follows x x') := by
  intro c c' start start'
  rw [eat, eat, start, start']
  obtain ⟨spells, head⟩ := h
  cases spells with
  | nil => exact .ok (by rw [start, start']; exact .no)
  | last goesOn => exact .ok (.yes (.inr ⟨rfl, goesOn⟩))
  | newline => simp at head
  | cons _ rest =>
    dsimp only
    split
    · exact .ok (.yes (.inl rest))
    · exact .ok (by rw [start, start']; exact .no)

theorem tracks_eatText {w : List Char} (inLine : w.any isLineEnd = false) (h : m.Spells x x') :
    Tracks m False (eatText w) (eatText w) x x' (Tested m.Spells x x') := by
  rintro c c' rfl rfl
  obtain ⟨same, left⟩ := h.drop inLine
  rw [eatText, eatText, same]
  split
  · next begins => exact .ok (.yes (left begins))
  · exact .ok .no

/-- A word has the same meaning in front of both spellings of what comes after it. -/
theorem tracks_word? {meaning : List Char → List Char → Option α}
    (same : ∀ w y y', m.Spells y y' → meaning w y' = meaning w y) (h : m.Spells x x') :
    Tracks m False (word? meaning) (word? meaning) x x' (Offered Eq m.Spells x x') := by
  rintro c c' rfl rfl
  obtain ⟨word, left⟩ := h.run (p := isWordChar) rfl rfl
  rw [word?, word?, word, same _ _ _ left]
  split
  · exact .ok (.some rfl left)
  · exact .ok .none

theorem tracks_eatKeyword (keyword : String) (h : m.Spells x x') :
    Tracks m False (eatKeyword keyword) (eatKeyword keyword) x x' (Tested m.Spells x x') :=
  (tracks_word? (fun _ _ _ _ => rfl) h).option (fun _ _ _ _ _ left => tracks_pure (.yes left))
    (tracks_pure .no)

theorem tracks_identifier? (h : m.Spells x x') :
    Tracks m False identifier? identifier? x x' (Offered Eq m.Spells x x') :=
  tracks_word? (fun _ _ _ _ => rfl) h

theorem tracks_expect {ch : Char} (inLine : isLineEnd ch = false) (expected : Expected)
    (h : m.Spells x x') :
    Tracks m False (expect ch expected) (expect ch expected) x x' fun _ _ y y' => m.Spells y y' :=
  (tracks_eat inLine h).branch (fun _ _ left => tracks_pure left) (tracks_unexpected _ _)

theorem tracks_expectKeyword (keyword : String) (expected : Expected) (h : m.Spells x x') :
    Tracks m False (expectKeyword keyword expected) (expectKeyword keyword expected) x x'
      fun _ _ y y' => m.Spells y y' :=
  (tracks_eatKeyword keyword h).branch (fun _ _ left => tracks_pure left) (tracks_unexpected _ _)

/-- Both texts are read, or neither is. -/
theorem tracks_atEnd {f f' : Bool → Reader β} {Q : β → β → List Char → List Char → Prop}
    (h : m.Spells x x') (next : Tracks m loses (f x.isEmpty) (f' x.isEmpty) x x' Q) :
    Tracks m loses (atEnd >>= f) (atEnd >>= f') x x' Q :=
  tracks_look h.isEmpty_eq next

/-! ## The end of a text -/

section

variable {f : α → Reader β} {r : Reader α}

/-- A reader that stays at the end of a text leaves it to the next one to fail there. -/
theorem Shuts.after {a : α} (stays : Reads r [] [] (· = a)) (h : Shuts loses (f a)) :
    Shuts loses (r >>= f) :=
  stays.goesOn.gives h

/-- A reader that never goes back is still at the end of a text. -/
theorem Forward.shuts (h : Forward r) (may : loses) : Shuts loses r := by
  intro c a d start run
  have short := (h c a d run).1.length_le
  rw [start] at short
  exact ⟨may, List.eq_nil_of_length_eq_zero (Nat.le_zero.1 short)⟩

theorem shuts_expect (ch : Char) (expected : Expected) {f : Unit → Reader β} :
    Shuts loses (expect ch expected >>= f) := by
  have fails : Gives (expect ch expected) [] fun _ _ => False :=
    (reads_eat_no .nil).goesOn.gives (gives_unexpected _)
  exact fails.bind fun _ _ => False.elim

theorem shuts_expectKeyword {keyword : String} (nonempty : keyword.toList ≠ [])
    (expected : Expected) {f : Unit → Reader β} :
    Shuts loses (expectKeyword keyword expected >>= f) := by
  have fails : Gives (expectKeyword keyword expected) [] fun _ _ => False :=
    (reads_eatKeyword_no (x := []) nonempty.symm).goesOn.gives (gives_unexpected _)
  exact fails.bind fun _ _ => False.elim

end

/-! ## Loops -/

/-- The outcomes of a turn: both loops go round again, or both end. -/
inductive Turned (I : σ → σ → List Char → List Char → Prop) (Q : β → β → List Char → List Char → Prop) :
    Turn σ β → Turn σ β → List Char → List Char → Prop
  | again {s s' : σ} {y y' : List Char} (keeps : I s s' y y') : Turned I Q (.again s) (.again s') y y'
  | done {b b' : β} {y y' : List Char} (gives : Q b b' y y') : Turned I Q (.done b) (.done b') y y'

/-- What each turn of two loops keeps, the loops keep to their ends. -/
theorem tracks_loop {step step' : σ → Reader (Turn σ β)}
    {progress : ∀ s, Moves Turn.IsAgain (step s)} {progress' : ∀ s, Moves Turn.IsAgain (step' s)}
    {I : σ → σ → List Char → List Char → Prop} {Q : β → β → List Char → List Char → Prop}
    (turn : ∀ s s' y y', I s s' y y' → Tracks m loses (step s) (step' s') y y' (Turned I Q))
    {s s' : σ} (h : I s s' x x') :
    Tracks m loses (loop step progress s) (loop step' progress' s') x x' Q := by
  intro c c' start start'
  show m.Agree _ _ (loopFrom step progress s c) (loopFrom step' progress' s' c')
  fun_induction loopFrom step progress s c generalizing x x' s' c' with
  | case1 s c e first =>
    have outcome := turn s s' x x' h c c' start start'
    rw [first] at outcome
    rw [loopFrom_eq s' c']
    generalize step' s' c' = o' at outcome
    cases outcome with
    | error => exact .error
    | stopped more => exact .stopped more
  | case2 s c b d first =>
    have outcome := turn s s' x x' h c c' start start'
    rw [first] at outcome
    rw [loopFrom_eq s' c']
    generalize step' s' c' = o' at outcome
    cases outcome with
    | @ok _ t related =>
      obtain ⟨t, d'⟩ := t
      cases related with
      | done gives => exact .ok gives
    | lost more ended => exact .lost more ended
  | case3 s c t d first ih =>
    have outcome := turn s s' x x' h c c' start start'
    rw [first] at outcome
    rw [loopFrom_eq s' c']
    generalize step' s' c' = o' at outcome
    cases outcome with
    | @ok _ u related =>
      obtain ⟨u, d'⟩ := u
      cases related with
      | again keeps => exact ih keeps d' rfl rfl
    | lost more ended =>
      cases rest : loopFrom step progress t d with
      | error e => exact .stopped more
      | ok result =>
        have forward : Forward (loop step progress t) := forward_loop t
        exact .lost more (forward.shuts ended.1 d result.1 result.2 ended.2 rest)

end Reader

end InterfaceFile
