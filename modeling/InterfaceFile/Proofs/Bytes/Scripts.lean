import InterfaceFile.Proofs.Bytes.ByteActions

/-!
# Scripts of readers

A `Script` says how a reader is put together from single actions. It is written once and read in several
ways: `Script.exec` runs its actions on the bytes of a source, and other modules collect from it where a
reader has been and what it has read. On bytes what is unread, words, the texts of spans and the beginnings
of lines are slices, offsets are kept in 32 bits, and loops go round at most once for each byte. In a source
of less than 2³² bytes the outcome of a script is that of its reader.
-/

namespace InterfaceFile

open String (utf8Len utf8Len_toList)
open Reader (Turn Moves Forward)

variable {α β σ : Type} {file : Option String} {source : String} {c d : Cursor}

/-- What has been read. -/
inductive Note where
  /-- A comment, whoever gets it. -/
  | comment (c : Comment)
  /-- An empty line. -/
  | blank
  /-- A signature. -/
  | sig (s : Sig)
  /-- A declaration without a body, as it stands in the text. -/
  | leaf (d : Declaration)
  /-- The header of a scope. -/
  | opens (s : Scope)
  /-- The `end` of a scope. -/
  | closes
  deriving DecidableEq, Repr

/-- What is collected along a loop, from what is collected in its turns. -/
def Reader.alongLoop {γ : Type} (step : σ → Reader (Turn σ β))
    (progress : ∀ s, Moves Turn.IsAgain (step s)) (turn : σ → Cursor → List γ) (s : σ) (c : Cursor) :
    List γ :=
  match _run : step s c with
  | .ok (.again t, d) => turn s c ++ alongLoop step progress turn t d
  | .ok (.done _, _) => turn s c
  | .error _ => turn s c
termination_by c.rest.length
decreasing_by exact (progress s c _ d _run).2 trivial

/-- A result that comes, at least in part, from the text that was read for it. `retake` says which results
    do and how: such a result is made again from a text, and the text that was read makes it the same. -/
structure Retakes (r : Reader α) (retake : α → Option (List Char → α)) : Prop where
  same : ∀ {c d : Cursor} {a : α} {read : List Char} {make : List Char → α}, r c = .ok (a, d) →
    c.rest = read ++ d.rest → retake a = some make → make read = a

/-- How a reader is put together from single actions. -/
inductive Script : {α : Type} → Reader α → Type 1 where
  | pure {α : Type} (a : α) : Script (pure a : Reader α)
  | bind {α β : Type} {r : Reader α} {f : α → Reader β} (first : Script r) (next : ∀ a, Script (f a)) :
    Script (r >>= f)
  | ite {α : Type} {r s : Reader α} {cond : Prop} [Decidable cond] (yes : Script r) (no : Script s) :
    Script (if cond then r else s)
  | fail {α : Type} (kind : ReadErrorKind) (span : Span) : Script (Reader.fail kind span : Reader α)
  | unexpected {α : Type} (expected : Expected) : Script (Reader.unexpected expected : Reader α)
  | here : Script Reader.here
  | locate (start stop : Position) : Script (Reader.locate start stop)
  | look {α : Type} (f : List Char → α) : Script (Reader.look f)
  | continuesPath : Script (Reader.look Reader.continuesPath)
  | skipWhile (p : Char → Bool) : Script (Reader.readWhile p >>= fun _ => Pure.pure () : Reader Unit)
  | readWhile (p : Char → Bool) : Script (Reader.readWhile p)
  | eat (ch : Char) : Script (Reader.eat ch)
  | eatText {text : List Char} (nonempty : text ≠ []) : Script (Reader.eatText text)
  | word? {α : Type} (meaning : List Char → List Char → Option α) : Script (Reader.word? meaning)
  | rawText (stop : Char → Bool) : Script (Reader.rawText stop)
  | loop {σ β : Type} {step : σ → Reader (Turn σ β)} {progress : ∀ s, Moves Turn.IsAgain (step s)}
    (turn : ∀ s, Script (step s)) (s : σ) : Script (Reader.loop step progress s)
  /-- Goes through a text and then takes it from the source. -/
  | sliced {α : Type} {r : Reader α} {retake : α → Option (List Char → α)} (inner : Script r)
    (retakes : Retakes r retake) : Script r
  /-- Notes what has been read. -/
  | noted {α : Type} {r : Reader α} (inner : Script r) (notes : α → List Note) : Script r
  /-- Does the actions of another reader that comes to the same. -/
  | same {α : Type} {r s : Reader α} (eq : r = s) (other : Script s) : Script r

namespace Script

/-- Runs a script on the bytes of a source. -/
def exec (source : String) (file : Option String) {α : Type} {r : Reader α} :
    Script r → Nat → Option (ByteOutcome α)
  | .pure a, offset => some (.ok (a, offset))
  | .bind first next, offset =>
    (first.exec source file offset).bind <| ByteOutcome.andThen fun a => (next a).exec source file
  | @ite _ _ _ cond _ yes no, offset =>
    if cond then yes.exec source file offset else no.exec source file offset
  | .fail kind span, _ => some (.error ⟨kind, span⟩)
  | .unexpected expected, offset => Bytes.unexpected source expected offset
  | .here, offset => Bytes.here source offset
  | .locate start stop, offset => some (.ok ({ file, start := start.place, stop := stop.place }, offset))
  | .look f, offset => Bytes.look source f offset
  | .continuesPath, offset => Bytes.continuesPath source offset
  | .skipWhile p, offset => Bytes.skipWhile source p offset
  | .readWhile p, offset => Bytes.readWhile source p offset
  | .eat ch, offset => Bytes.eat source ch offset
  | @eatText text _, offset => Bytes.eatText source text offset
  | .word? meaning, offset => Bytes.word? source meaning offset
  | .rawText stop, offset => Bytes.rawText source stop offset
  | .loop turn s, offset =>
    Bytes.loop (fun s => (turn s).exec source file) (source.utf8ByteSize + 1) s offset
  | @sliced _ _ retake inner _, offset =>
    (inner.exec source file offset).bind <| ByteOutcome.andThen fun a =>
      Bytes.retaken source (retake a) a offset
  | .noted inner _, offset => inner.exec source file offset
  | .same _ other, offset => other.exec source file offset

theorem exec_bind_eq_ok {r : Reader α} {f : α → Reader β} {first : Script r} {next : ∀ a, Script (f a)}
    {o q : Nat} {b : β} : (first.bind next).exec source file o = some (.ok (b, q)) ↔
      ∃ a p, first.exec source file o = some (.ok (a, p)) ∧
        (next a).exec source file p = some (.ok (b, q)) := by
  rw [exec, Option.bind_eq_some_iff]
  constructor
  · rintro ⟨e | ⟨a, p⟩, one, two⟩
    · cases two
    · exact ⟨a, p, one, two⟩
  · rintro ⟨a, p, one, two⟩
    exact ⟨.ok (a, p), one, two⟩

theorem forward {r : Reader α} (script : Script r) : Forward r := by
  induction script with
  | pure a => exact Reader.forward_pure a
  | bind first next ih ih' => exact ih.andThen ih'
  | ite yes no ih ih' => exact ih.ite ih'
  | fail kind span => exact Reader.moves_fail _ kind span
  | unexpected expected => exact Reader.moves_unexpected _ expected
  | here => exact Reader.forward_here
  | locate start stop => exact Reader.forward_locate start stop
  | look f => exact Reader.forward_look f
  | continuesPath => exact Reader.forward_look _
  | skipWhile p => exact (Reader.forward_readWhile p).andThen fun _ => Reader.forward_pure ()
  | readWhile p => exact Reader.forward_readWhile p
  | eat ch => exact (Reader.moves_eat ch).forward
  | eatText nonempty => exact (Reader.moves_eatText nonempty).forward
  | word? meaning => exact (Reader.moves_word? meaning).forward
  | rawText stop => exact (Reader.moves_rawText stop).forward
  | loop turn s ih => exact Reader.forward_loop s
  | sliced inner retakes ih => exact ih
  | noted inner notes ih => exact ih
  | same eq other ih => exact eq ▸ ih

/-- A loop that does on bytes what it does on characters in each turn does so to its end, because each turn
    but the last reads something. -/
theorem loop_eq {o : Cursor} {step : σ → Reader (Turn σ β)} {progress : ∀ s, Moves Turn.IsAgain (step s)}
    {bytes : σ → Nat → Option (ByteOutcome (Turn σ β))}
    (turn : ∀ s c, o.Reaches c → bytes s c.pos.offset = some (.ofReader (step s c)))
    {s : σ} {rounds : Nat} (reached : o.Reaches c) (enough : c.rest.length < rounds) :
    Bytes.loop bytes rounds s c.pos.offset =
      some (.ofReader (Reader.loopFrom step progress s c)) := by
  fun_induction Reader.loopFrom step progress s c generalizing rounds with
  | case1 s c e first =>
    obtain ⟨more, rfl⟩ := Nat.exists_eq_succ_of_ne_zero (Nat.ne_zero_of_lt enough)
    rw [Bytes.loop, turn s c reached, first]
    rfl
  | case2 s c b d first =>
    obtain ⟨more, rfl⟩ := Nat.exists_eq_succ_of_ne_zero (Nat.ne_zero_of_lt enough)
    rw [Bytes.loop, turn s c reached, first]
    rfl
  | case3 s c s' d first ih =>
    obtain ⟨more, rfl⟩ := Nat.exists_eq_succ_of_ne_zero (Nat.ne_zero_of_lt enough)
    obtain ⟨further, less⟩ := progress s c _ d first
    rw [Bytes.loop, turn s c reached, first]
    exact ih (reached.trans further) (Nat.lt_of_lt_of_le (less trivial) (Nat.le_of_lt_succ enough))

/-- In a source of less than 2³² bytes a script comes to what its reader comes to, wherever the reading
    from the start has come. -/
theorem exec_eq {r : Reader α} (script : Script r) (short : source.utf8ByteSize < 2 ^ 32)
    (reached : (Cursor.ofText file source.toList).Reaches c) :
    script.exec source file c.pos.offset = some (.ofReader (r c)) := by
  induction script generalizing c with
  | pure a => rfl
  | @bind _ _ r f first next ih ih' =>
    rw [exec, ih reached, Reader.bind_eq]
    cases run : r c with
    | error e => rfl
    | ok result =>
      obtain ⟨a, d⟩ := result
      exact ih' a (reached.trans (first.forward c a d run).1)
  | ite yes no ih ih' =>
    rw [exec]
    split
    · exact ih reached
    · exact ih' reached
  | fail kind span => rfl
  | unexpected expected => exact Bytes.unexpected_eq reached short expected
  | here => exact Bytes.here_eq reached short
  | locate start stop =>
    have same : c.file = file := reached.file
    rw [exec, ← same]
    rfl
  | look f => exact Bytes.look_eq reached f
  | continuesPath => exact Bytes.continuesPath_eq reached
  | skipWhile p => exact Bytes.skipWhile_eq reached p
  | readWhile p => exact Bytes.readWhile_eq reached short p
  | eat ch => exact Bytes.eat_eq reached ch
  | @eatText text nonempty => exact Bytes.eatText_eq reached text
  | word? meaning => exact Bytes.word?_eq reached meaning
  | rawText stop => exact Bytes.rawText_eq reached short stop
  | loop turn s ih =>
    -- There are no more turns than characters, and no more characters than bytes.
    refine loop_eq (fun s d => ih s) reached ?_
    obtain ⟨front, whole, -⟩ := reached.front
    have size := length_le_utf8Len source.toList
    rw [utf8Len_toList, whole, List.length_append] at size
    omega
  | @sliced _ r retake inner retakes ih =>
    rw [exec, ih reached]
    cases run : r c with
    | error e => rfl
    | ok result =>
      obtain ⟨a, d⟩ := result
      obtain ⟨read, whole, eq⟩ := (inner.forward c a d run).1
      have stop : d.pos.offset = c.pos.offset + utf8Len read := by
        rw [eq, Cursor.moveOver, Position.offset_after]
      have text := Bytes.textFor?_eq reached short whole
      rw [← stop] at text
      change Bytes.retaken source (retake a) a c.pos.offset d.pos.offset = _
      cases make? : retake a with
      | none => rfl
      | some make =>
        simp only [Bytes.retaken, text, Option.bind_eq_bind, Option.bind_some, String.toList_ofList,
          retakes.same run whole make?]
        rfl
  | noted inner notes ih => exact ih reached
  | same eq other ih => exact eq ▸ ih reached

end Script

end InterfaceFile
