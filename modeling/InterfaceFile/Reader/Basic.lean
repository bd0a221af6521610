import InterfaceFile.Reader.Error

/-!
# Readers

A reader looks at the unread text and gives a result with the text that is left, or an error.
`Moves` says how far a reader goes: it never goes back, and results of a given kind cost at least
one character. That is what makes `loop` end: a loop goes round again only after a step that has
read something, so the length of the unread text bounds the number of rounds.
-/

namespace InterfaceFile

/-- A place in a text: what is unread, and the position of its first character. -/
structure Cursor where
  /-- The file that the text came from. -/
  file : Option String
  pos : Position
  rest : List Char
  deriving DecidableEq, Repr

namespace Cursor

/-- The start of a text. -/
def ofText (file : Option String) (text : List Char) : Cursor :=
  { file, pos := {}, rest := text }

/-- The cursor after the characters `read`, with `rest` unread. -/
def moveOver (c : Cursor) (read rest : List Char) : Cursor :=
  { c with pos := c.pos.after read, rest }

/-- Does reading some text at `c` lead to `d`? -/
def Reaches (c d : Cursor) : Prop :=
  ∃ read, c.rest = read ++ d.rest ∧ d = c.moveOver read d.rest

theorem Reaches.refl (c : Cursor) : c.Reaches c :=
  ⟨[], rfl, rfl⟩

theorem Reaches.trans {c d e : Cursor} (h : c.Reaches d) (k : d.Reaches e) : c.Reaches e := by
  obtain ⟨v, hv, hd⟩ := h
  obtain ⟨w, hw, he⟩ := k
  refine ⟨v ++ w, by rw [hv, hw, List.append_assoc], ?_⟩
  rw [he, hd]
  simp [moveOver, Position.after_append]

theorem Reaches.length_le {c d : Cursor} (h : c.Reaches d) : d.rest.length ≤ c.rest.length := by
  obtain ⟨v, hv, -⟩ := h
  simp [hv]

theorem reaches_moveOver {c : Cursor} {read rest : List Char} (h : c.rest = read ++ rest) :
    c.Reaches (c.moveOver read rest) :=
  ⟨read, h, rfl⟩

end Cursor

/-- A reader of values of type `α`. -/
def Reader (α : Type) : Type :=
  Cursor → Except ReadError (α × Cursor)

namespace Reader

instance : Monad Reader where
  pure a := fun c => .ok (a, c)
  bind r f := fun c => match r c with
    | .ok (a, d) => f a d
    | .error e => .error e

variable {α β σ : Type}

/-- Runs a reader on a whole text. -/
def run (r : Reader α) (file : Option String) (text : List Char) : Except ReadError α :=
  (r (Cursor.ofText file text)).map Prod.fst

/-- Stops with an error. -/
def fail (kind : ReadErrorKind) (span : Span) : Reader α :=
  fun _ => .error ⟨kind, span⟩

/-- The present position. -/
def here : Reader Position :=
  fun c => .ok (c.pos, c)

/-- The location of a range of the text. -/
def locate (start stop : Position) : Reader Location :=
  fun c => .ok ({ file := c.file, start := start.place, stop := stop.place }, c)

/-- Looks at the unread text. -/
def look (f : List Char → α) : Reader α :=
  fun c => .ok (f c.rest, c)

/-- What a step of a loop says: go round again, or stop with a result. -/
inductive Turn (σ β : Type) where
  | again (state : σ)
  | done (result : β)

/-- Does the loop go round again? -/
def Turn.IsAgain : Turn σ β → Prop
  | again _ => True
  | done _ => False

/-- A reader never goes back, and reads at least one character for each result of which `p`
    holds. -/
def Moves (p : α → Prop) (r : Reader α) : Prop :=
  ∀ c a d, r c = .ok (a, d) → c.Reaches d ∧ (p a → d.rest.length < c.rest.length)

/-- A reader never goes back. -/
abbrev Forward (r : Reader α) : Prop :=
  Moves (fun _ => False) r

/-- A reader reads at least one character whenever it succeeds. -/
abbrev Advances (r : Reader α) : Prop :=
  Moves (fun _ => True) r

theorem Moves.mono {p q : α → Prop} {r : Reader α} (h : Moves p r) (sub : ∀ a, q a → p a) :
    Moves q r :=
  fun c a d run => ⟨(h c a d run).1, fun hq => (h c a d run).2 (sub a hq)⟩

theorem Moves.forward {p : α → Prop} {r : Reader α} (h : Moves p r) : Forward r :=
  h.mono fun _ => False.elim

theorem Advances.moves {p : α → Prop} {r : Reader α} (h : Advances r) : Moves p r :=
  h.mono fun _ _ => trivial

theorem moves_fail (p : α → Prop) (kind : ReadErrorKind) (span : Span) :
    Moves p (fail kind span : Reader α) := by
  intro c a d run
  cases run

theorem moves_pure {p : α → Prop} {a : α} (h : ¬ p a) : Moves p (pure a : Reader α) := by
  intro c b d run
  cases run
  exact ⟨.refl c, fun hp => absurd hp h⟩

theorem forward_pure (a : α) : Forward (pure a : Reader α) :=
  moves_pure id

theorem forward_here : Forward here := by
  intro c a d run
  cases run
  exact ⟨.refl c, False.elim⟩

theorem forward_locate (start stop : Position) : Forward (locate start stop) := by
  intro c a d run
  cases run
  exact ⟨.refl c, False.elim⟩

theorem forward_look (f : List Char → α) : Forward (look f) := by
  intro c a d run
  cases run
  exact ⟨.refl c, False.elim⟩

/-- After a result of which `p` holds the next reader need not read anything. -/
theorem Moves.bind {p : α → Prop} {q : β → Prop} {r : Reader α} {f : α → Reader β}
    (hr : Moves p r) (hf : ∀ a, Moves (fun b => q b ∧ ¬ p a) (f a)) : Moves q (r >>= f) := by
  intro c b e run
  cases first : r c with
  | error err =>
    have : (r >>= f) c = .error err := by simp [Bind.bind, first]
    rw [this] at run
    cases run
  | ok result =>
    obtain ⟨a, d⟩ := result
    have second : f a d = .ok (b, e) := by
      have : (r >>= f) c = f a d := by simp [Bind.bind, first]
      rw [← this, run]
    have one := hr c a d first
    have two := hf a d b e second
    refine ⟨one.1.trans two.1, fun hq => ?_⟩
    have := two.1.length_le
    have := one.1.length_le
    by_cases hp : p a
    · have := one.2 hp
      omega
    · have := two.2 ⟨hq, hp⟩
      omega

theorem Moves.andThen {p : α → Prop} {q : β → Prop} {r : Reader α} {f : α → Reader β}
    (hr : Moves p r) (hf : ∀ a, Moves q (f a)) : Moves q (r >>= f) :=
  hr.bind fun a => (hf a).mono fun _ h => h.1

theorem Advances.start {q : β → Prop} {r : Reader α} {f : α → Reader β}
    (hr : Advances r) (hf : ∀ a, Forward (f a)) : Moves q (r >>= f) :=
  Moves.bind hr fun a => (hf a).mono fun _ h => h.2 trivial

/-- A test that reads something when it succeeds. -/
theorem Moves.branch {q : β → Prop} {r : Reader Bool} {f : Bool → Reader β}
    (hr : Moves (· = true) r) (yes : Forward (f true)) (no : Moves q (f false)) :
    Moves q (r >>= f) :=
  hr.bind fun b => by
    cases b with
    | true => exact yes.mono fun _ h => h.2 rfl
    | false => exact no.mono fun _ h => h.1

/-- A reader of something optional that reads something when it is there. -/
theorem Moves.option {q : β → Prop} {r : Reader (Option α)} {f : Option α → Reader β}
    (hr : Moves (fun o => o.isSome = true) r) (yes : ∀ a, Forward (f (some a)))
    (no : Moves q (f none)) : Moves q (r >>= f) :=
  hr.bind fun o => by
    cases o with
    | some a => exact (yes a).mono fun _ h => h.2 rfl
    | none => exact no.mono fun _ h => h.1

theorem Moves.ite {p : α → Prop} {r s : Reader α} {cond : Prop} [Decidable cond]
    (yes : Moves p r) (no : Moves p s) : Moves p (if cond then r else s) := by
  split
  · exact yes
  · exact no

/-- Repeats a step until it is done, from a given cursor on. -/
def loopFrom (step : σ → Reader (Turn σ β)) (progress : ∀ s, Moves Turn.IsAgain (step s)) (s : σ)
    (c : Cursor) : Except ReadError (β × Cursor) :=
  match _run : step s c with
  | .error e => .error e
  | .ok (.done b, d) => .ok (b, d)
  | .ok (.again t, d) => loopFrom step progress t d
termination_by c.rest.length
decreasing_by exact (progress s c _ d _run).2 trivial

/-- Repeats a step until it is done. -/
def loop (step : σ → Reader (Turn σ β)) (progress : ∀ s, Moves Turn.IsAgain (step s)) (s : σ) :
    Reader β :=
  fun c => loopFrom step progress s c

theorem forward_loop {step : σ → Reader (Turn σ β)}
    {progress : ∀ s, Moves Turn.IsAgain (step s)} (s : σ) : Forward (loop step progress s) := by
  intro c b e run
  change loopFrom step progress s c = .ok (b, e) at run
  fun_induction loopFrom step progress s c with
  | case1 => cases run
  | case2 s c b' d first =>
    cases run
    exact ⟨(progress s c _ _ first).1, False.elim⟩
  | case3 s c t d first ih => exact ⟨(progress s c _ _ first).1.trans (ih run).1, False.elim⟩

/-- A loop reads something if each of its steps does. -/
theorem advances_loop {step : σ → Reader (Turn σ β)}
    {progress : ∀ s, Moves Turn.IsAgain (step s)} (all : ∀ s, Advances (step s)) (s : σ) :
    Advances (loop step progress s) := by
  intro c b e run
  refine ⟨(forward_loop s c b e run).1, fun _ => ?_⟩
  change loopFrom step progress s c = .ok (b, e) at run
  unfold loopFrom at run
  split at run
  · cases run
  · rename_i b' d first
    cases run
    exact (all s c _ _ first).2 trivial
  · rename_i t d first
    have := (all s c _ _ first).2 trivial
    have := (forward_loop t d b e run).1.length_le
    omega

end Reader

end InterfaceFile
