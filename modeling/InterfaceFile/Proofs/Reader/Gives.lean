import InterfaceFile.Proofs.RoundTrip.Printable

/-!
# What a reader gives

`Gives r x P` says that if the reader `r` succeeds in front of the text `x`, then `P` holds of its
result and of the text that it leaves. It says nothing of a reader that fails.
-/

namespace InterfaceFile

namespace Reader

variable {α β σ : Type}

/-- Whenever the reader succeeds in front of `x`, `P` holds of the result and of what is left. -/
def Gives (r : Reader α) (x : List Char) (P : α → List Char → Prop) : Prop :=
  ∀ c a d, c.rest = x → r c = .ok (a, d) → P a d.rest

variable {r : Reader α} {f : α → Reader β} {x : List Char} {P : α → List Char → Prop}
  {Q : β → List Char → Prop}

/-- A text is accepted if the reader succeeds at its start. -/
theorem run_eq_ok {file : Option String} {text : List Char} {a : α} :
    r.run file text = .ok a ↔ ∃ d, r (Cursor.ofText file text) = .ok (a, d) := by
  rw [run]
  cases r (Cursor.ofText file text) with
  | error e => simp [Except.map]
  | ok result => simp [Except.map, Prod.ext_iff]

theorem run_eq_error {file : Option String} {text : List Char} {e : ReadError} :
    r.run file text = .error e ↔ r (Cursor.ofText file text) = .error e := by
  rw [run]
  cases r (Cursor.ofText file text) <;> simp [Except.map]

/-- What comes after a reader that succeeds goes on from where that one stops. -/
theorem bind_eq (c : Cursor) : (r >>= f) c = (r c).bind fun s => f s.1 s.2 := by
  cases first : r c with
  | error e => simp [Bind.bind, Except.bind, first]
  | ok s => simp [Bind.bind, Except.bind, first]

/-- Two readers succeed one after the other. -/
theorem bind_eq_ok {c e : Cursor} {b : β} :
    (r >>= f) c = .ok (b, e) ↔ ∃ a d, r c = .ok (a, d) ∧ f a d = .ok (b, e) := by
  rw [bind_eq]
  cases r c with
  | error e => simp [Except.bind]
  | ok s =>
    constructor
    · exact fun run => ⟨s.1, s.2, rfl, run⟩
    · rintro ⟨_, _, ⟨⟩, run⟩
      exact run

theorem Gives.bind (h : Gives r x P) (next : ∀ a y, P a y → Gives (f a) y Q) :
    Gives (r >>= f) x Q := by
  intro c b e start run
  obtain ⟨a, d, first, second⟩ := bind_eq_ok.1 run
  exact next a d.rest (h c a d start first) d b e rfl second

/-- The first result does not matter. -/
theorem gives_next (next : ∀ a y, Gives (f a) y Q) : Gives (r >>= f) x Q := by
  have any : Gives r x fun _ _ => True := fun _ _ _ _ _ => trivial
  exact any.bind fun a y _ => next a y

theorem Gives.mono {P' : α → List Char → Prop} (h : Gives r x P) (sub : ∀ a y, P a y → P' a y) :
    Gives r x P' :=
  fun c a d start run => sub a d.rest (h c a d start run)

theorem Reads.gives {y : List Char} {P : α → Prop} (h : Reads r x y P) :
    Gives r x fun a z => P a ∧ z = y := by
  intro c a d start run
  obtain ⟨b, e, run', rest, holds⟩ := h c start
  rw [run'] at run
  cases run
  exact ⟨holds, rest⟩

theorem GoesOn.gives {r' : Reader α} {y : List Char} (h : GoesOn r x r' y) (given : Gives r' y P) :
    Gives r x P := by
  intro c a d start run
  obtain ⟨c', rest, same⟩ := h c start
  exact given c' a d rest (same ▸ run)

theorem gives_pure {a : α} (h : P a x) : Gives (pure a) x P := by
  intro c b d start run
  cases run
  exact start ▸ h

theorem gives_fail (kind : ReadErrorKind) (span : Span) : Gives (fail kind span : Reader α) x P := by
  intro c a d start run
  cases run

theorem gives_unexpected (expected : Expected) : Gives (unexpected expected : Reader α) x P := by
  intro c a d start run
  cases run

theorem Gives.ite {cond : Prop} [Decidable cond] {r s : Reader α} (yes : cond → Gives r x P)
    (no : ¬ cond → Gives s x P) : Gives (if cond then r else s) x P := by
  split
  · exact yes ‹_›
  · exact no ‹_›

/-- A test whose result is only used to choose what comes next. -/
theorem gives_branch {test : Reader Bool} {r s : Reader β} (yes : ∀ y, Gives r y Q)
    (no : ∀ y, Gives s y Q) : Gives (test >>= fun b => if b = true then r else s) x Q :=
  gives_next fun _ y => .ite (fun _ => yes y) fun _ => no y

theorem Gives.and {P' : α → List Char → Prop} (h : Gives r x P) (h' : Gives r x P') :
    Gives r x fun a y => P a y ∧ P' a y :=
  fun c a d start run => ⟨h c a d start run, h' c a d start run⟩

theorem gives_here : Gives here x fun _ y => y = x := by
  intro c a d start run
  cases run
  exact start

theorem gives_look (g : List Char → α) : Gives (look g) x fun a y => a = g x ∧ y = x := by
  intro c a d start run
  cases run
  rw [start]
  exact ⟨rfl, rfl⟩

theorem gives_readWhile (p : Char → Bool) :
    Gives (readWhile p) x fun a y => a = x.takeWhile p ∧ y = x.dropWhile p := by
  intro c a d start run
  cases run
  rw [Cursor.moveOver, start]
  exact ⟨rfl, rfl⟩

theorem gives_skipSpaces : Gives skipSpaces x fun _ y => y = x.dropWhile isLineSpace :=
  (gives_readWhile _).bind fun _ _ h => gives_pure h.2

theorem gives_eat {ch : Char} : Gives (eat ch) x fun a y =>
    x = (if a then [ch] else []) ++ y ∧ (a = false → Stops (· = ch) x) := by
  intro c a d start run
  unfold eat at run
  split at run
  · next e rest text =>
    split at run
    · next same =>
      cases run
      rw [← start, text, same]
      exact ⟨rfl, nofun⟩
    · next other =>
      cases run
      rw [← start, text]
      exact ⟨rfl, fun _ => .cons (by simpa using other)⟩
  · next text =>
    cases run
    rw [← start, text]
    exact ⟨rfl, fun _ => .nil⟩

theorem gives_eatText {text : List Char} : Gives (eatText text) x fun a y =>
    x = (if a then text else []) ++ y ∧ (a = false → ¬ text <+: x) := by
  intro c a d start run
  unfold eatText at run
  split at run
  · next begins =>
    cases run
    obtain ⟨rest, eq⟩ := List.isPrefixOf_iff_prefix.1 begins
    subst start
    simp [← eq, Cursor.moveOver]
  · next other =>
    cases run
    rw [← start]
    exact ⟨rfl, fun _ begins => other (List.isPrefixOf_iff_prefix.2 begins)⟩

/-- A word that means something, or none of those that do. -/
theorem gives_word? (meaning : List Char → List Char → Option α) :
    Gives (word? meaning) x fun r y =>
      (∀ a ∈ r, x.takeWhile isWordChar ≠ [] ∧ y = x.dropWhile isWordChar ∧
        meaning (x.takeWhile isWordChar) (x.dropWhile isWordChar) = some a) ∧
      (r = none → y = x ∧ (x.takeWhile isWordChar ≠ [] →
        meaning (x.takeWhile isWordChar) (x.dropWhile isWordChar) = none)) := by
  intro c r d start run
  rw [word?, start] at run
  split at run
  · next ch rest a word means =>
    cases run
    refine ⟨?_, fun none => by cases none⟩
    rintro _ ⟨⟩
    exact ⟨by rw [word]; simp, rfl, means⟩
  · next other =>
    cases run
    refine ⟨?_, fun _ => ⟨start, fun nonempty => ?_⟩⟩
    · intro a none
      cases none
    cases means : meaning (x.takeWhile isWordChar) (x.dropWhile isWordChar) with
    | none => rfl
    | some a =>
      obtain ⟨ch, rest, word⟩ := List.exists_cons_of_ne_nil nonempty
      exact absurd means (other ch rest a word)

theorem gives_eatKeyword_no {keyword : String} (nonempty : keyword.toList ≠ []) :
    Gives (eatKeyword keyword) x fun a y =>
      a = false → y = x ∧ x.takeWhile isWordChar ≠ keyword.toList := by
  refine (gives_word? _).bind fun found y given => gives_pure ?_
  intro none
  obtain ⟨rest, other⟩ := given.2 (Option.not_isSome_iff_eq_none.1 (by simp [none]))
  refine ⟨rest, fun same => ?_⟩
  have lost := other (by rwa [same])
  rw [if_pos same] at lost
  cases lost

variable {step : σ → Reader (Turn σ β)} {progress : ∀ s, Moves Turn.IsAgain (step s)} {s : σ}

theorem loopFrom_eq (s : σ) (c : Cursor) : loopFrom step progress s c =
    match step s c with
    | .error e => .error e
    | .ok (.done b, d) => .ok (b, d)
    | .ok (.again t, d) => loopFrom step progress t d := by
  rw [loopFrom]
  split <;> simp [*]

/-- What a turn of a loop keeps or gives. -/
def TurnOf (I : σ → Prop) (Q : β → Prop) : Turn σ β → Prop
  | .again s => I s
  | .done b => Q b

/-- What each turn of a loop keeps, of its state and of what is left, the loop keeps to its end. -/
theorem gives_loop_left {I : σ → List Char → Prop}
    (turn : ∀ s x, I s x → Gives (step s) x fun t y => TurnOf (I · y) (Q · y) t) (h : I s x) :
    Gives (loop step progress s) x Q := by
  intro c b e start run
  subst start
  change loopFrom step progress s c = .ok (b, e) at run
  fun_induction loopFrom step progress s c with
  | case1 => cases run
  | case2 s c b' d first =>
    cases run
    exact turn s c.rest h c _ _ rfl first
  | case3 s c t d first ih => exact ih (turn s c.rest h c _ _ rfl first) run

theorem gives_loop {I : σ → Prop} {Q : β → Prop}
    (turn : ∀ s x, I s → Gives (step s) x fun t _ => TurnOf I Q t) (h : I s) :
    Gives (loop step progress s) x fun b _ => Q b :=
  gives_loop_left (I := fun s _ => I s) turn h

/-- The first turn may give more than it was given. -/
theorem gives_loop_first {I : σ → Prop} {Q : β → Prop}
    (first : Gives (step s) x fun t _ => TurnOf I Q t)
    (turn : ∀ s x, I s → Gives (step s) x fun t _ => TurnOf I Q t) :
    Gives (loop step progress s) x fun b _ => Q b := by
  intro c b e start run
  change loopFrom step progress s c = .ok (b, e) at run
  unfold loopFrom at run
  split at run
  · cases run
  · next b' d one =>
    cases run
    exact first c _ _ start one
  · next t d one => exact gives_loop turn (first c _ _ start one) d b e rfl run

end Reader

end InterfaceFile
