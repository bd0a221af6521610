import InterfaceFile.Proofs.Spelling.RawTexts
import InterfaceFile.Proofs.Spelling.Tracks

/-!
# Raw texts and comments in two spellings

Raw text is taken up to the same place in both spellings. If it is taken up to the end of a line, then
one text may have a carriage return more, which is trimmed away; any other carriage return stays before
the newline that it belongs to. A comment loses the carriage returns at its end.
-/

namespace InterfaceFile

/-- Nothing is open after a carriage return and a newline but what is open after the newline alone. -/
theorem Shape.next_return {s : Shape} (h : s.Quoted) : (s.next '\r').next '\n' = s.next '\n' := by
  obtain ⟨depth, literal⟩ := s
  cases literal with
  | none => rfl
  | some l =>
    obtain ⟨quote, escaped⟩ := l
    have other : '\n' ≠ quote ∧ '\r' ≠ quote := by
      have begins : isQuote quote = true := h _ rfl
      refine ⟨?_, ?_⟩ <;> rintro rfl <;> cases begins
    cases escaped <;> simp [Shape.next, other]

theorem Shape.stopsAt_congr {s t : Shape} (stop : Char → Bool) (depth : t.depth = s.depth)
    (literal : t.literal.isSome = s.literal.isSome) {c : Char} :
    t.stopsAt stop c = s.stopsAt stop c := by
  rw [stopsAt, stopsAt, depth, ← Option.not_isSome, ← Option.not_isSome, literal]

namespace Nesting

variable {n n' : Nesting}

theorem stopsAt_congr (same : n'.shape = n.shape) (stop : Char → Bool) (c : Char) :
    n'.stopsAt stop c = n.stopsAt stop c := by
  rw [← stopsAt_shape, same, stopsAt_shape]

theorem next_congr (same : n'.shape = n.shape) (offset offset' : Nat) (c : Char) :
    (n'.next offset' c).shape = (n.next offset c).shape := by
  rw [shape_next, shape_next, same]

theorem openError?_congr (same : n'.shape = n.shape) (offset offset' : Nat) :
    n'.openError? offset' = none ↔ n.openError? offset = none := by
  rw [openError?_eq_none, openError?_eq_none, same]

theorem quoted_next (h : n.shape.Quoted) (offset : Nat) (c : Char) :
    (n.next offset c).shape.Quoted := by
  rw [shape_next]
  exact h.next c

/-- A carriage return stops raw text only if it is one of the characters that do. -/
theorem stopsAt_return {stop : Char → Bool} (ret : stop '\r' = false) (n : Nesting) :
    n.stopsAt stop '\r' = false := by
  rw [← stopsAt_shape]
  simp [Shape.stopsAt, ret, isCloser]

/-- A carriage return opens and closes nothing. -/
theorem stopsAt_next_return (quoted : n.shape.Quoted) (offset : Nat) (stop : Char → Bool) (c : Char) :
    (n.next offset '\r').stopsAt stop c = n.stopsAt stop c := by
  have kept := Shape.next_blank (c := '\r') rfl quoted
  rw [← stopsAt_shape, shape_next, Shape.stopsAt_congr stop kept.1 kept.2, stopsAt_shape]

/-- With or without a carriage return before it, a newline leaves the same things open. -/
theorem shape_next_return (quoted : n.shape.Quoted) (same : n'.shape = n.shape)
    (offset offset' offset'' : Nat) :
    ((n'.next offset' '\r').next offset'' '\n').shape = (n.next offset '\n').shape := by
  rw [shape_next, shape_next, same, Shape.next_return quoted, shape_next]

/-- If nothing is open behind a newline, then nothing was open before it, and only what newlines do not
    stop goes on there. -/
theorem newline_passes {stop : Char → Bool} {offset offset' : Nat} (quoted : n.shape.Quoted)
    (goes : n.stopsAt stop '\n' = false)
    (closed : (n.next offset '\n').openError? offset' = none) : stop '\n' = false := by
  have kept := Shape.next_blank (c := '\n') rfl quoted
  rw [openError?_eq_none, shape_next] at closed
  rw [closed] at kept
  rw [← stopsAt_shape, ← Shape.stopsAt_congr stop kept.1 kept.2] at goes
  simpa [Shape.stopsAt, isCloser] using goes

end Nesting

theorem takeRaw_nil (stop : Char → Bool) (n : Nesting) (taken : List Char) (pos : Position) :
    takeRaw stop n taken pos [] =
      match n.openError? pos.offset with
      | some e => .error e
      | none => .ok (taken.reverse, [], pos) :=
  rfl

theorem takeRaw_cons (stop : Char → Bool) (n : Nesting) (taken : List Char) (pos : Position) (c : Char)
    (rest : List Char) : takeRaw stop n taken pos (c :: rest) =
      if n.stopsAt stop c then .ok (taken.reverse, c :: rest, pos)
      else takeRaw stop (n.next pos.offset c) (c :: taken) (pos.step c) rest := by
  rw [takeRaw]

namespace Respelling

variable {m : Respelling} {x x' w w' : List Char} {c : Char} {stop : Char → Bool}

/-- The two texts as they are taken, before they are trimmed. -/
def Takes (m : Respelling) (w w' : List Char) : Prop :=
  ∃ v, m.whole.Spells w v ∧ (w' = v ∨ w' = v ++ ['\r'])

theorem takes_nil : m.Takes [] [] :=
  ⟨[], .nil rfl, .inl rfl⟩

theorem Takes.cons (free : m.returns = true → c ≠ '\r') (h : m.Takes w w') :
    m.Takes (c :: w) (c :: w') := by
  obtain ⟨v, spells, same⟩ := h
  exact ⟨c :: v, .cons free spells, same.imp (congrArg _) (congrArg _)⟩

theorem Takes.newline (on : m.returns = true) (h : m.Takes w w') :
    m.Takes ('\n' :: w) ('\r' :: '\n' :: w') := by
  obtain ⟨v, spells, same⟩ := h
  exact ⟨'\r' :: '\n' :: v, .newline on spells, same.imp (by rintro rfl; rfl) (by rintro rfl; rfl)⟩

theorem Takes.trim (h : m.Takes w w') : m.whole.Spells (Text.trim w) (Text.trim w') := by
  obtain ⟨v, spells, rfl | rfl⟩ := h
  · exact spells.trim
  · rw [Text.trim_append_blank (List.forall_mem_singleton.2 rfl)]
    exact spells.trim

/-- What both runs take is two spellings of one text, and so is what they leave. -/
def Takings (m : Respelling) (taken taken' : List Char)
    (s s' : List Char × List Char × Position) : Prop :=
  ∃ w w', s.1 = taken.reverse ++ w ∧ s'.1 = taken'.reverse ++ w' ∧ m.Takes w w' ∧
    m.Spells s.2.1 s'.2.1

theorem Takings.cons (free : m.returns = true → c ≠ '\r') {taken taken' : List Char}
    {s s' : List Char × List Char × Position} (h : m.Takings (c :: taken) (c :: taken') s s') :
    m.Takings taken taken' s s' := by
  obtain ⟨w, w', first, second, takes, left⟩ := h
  exact ⟨c :: w, c :: w', by simp [first], by simp [second], takes.cons free, left⟩

theorem Takings.newline (on : m.returns = true) {taken taken' : List Char}
    {s s' : List Char × List Char × Position}
    (h : m.Takings ('\n' :: taken) ('\n' :: '\r' :: taken') s s') : m.Takings taken taken' s s' := by
  obtain ⟨w, w', first, second, takes, left⟩ := h
  exact ⟨'\n' :: w, '\r' :: '\n' :: w', by simp [first], by simp [second], takes.newline on, left⟩

theorem takings_nil {y y' : List Char} (left : m.Spells y y') (taken taken' : List Char)
    (pos pos' : Position) :
    m.Takings taken taken' (taken.reverse, y, pos) (taken'.reverse, y', pos') :=
  ⟨[], [], by simp, by simp, takes_nil, left⟩

/-- Raw text is taken in step. Only a text that newlines do not stop can be taken up to the end of the
    first text where the second one goes on. -/
theorem Spells.takeRaw (ret : stop '\r' = false) (h : m.Spells x x') {n n' : Nesting}
    (same : n'.shape = n.shape) (quoted : n.shape.Quoted) (taken taken' : List Char)
    (pos pos' : Position) :
    m.Agree (fun s => stop '\n' = false ∧ s.2.1 = []) (m.Takings taken taken')
      (takeRaw stop n taken pos x) (takeRaw stop n' taken' pos' x') := by
  induction h generalizing n n' taken taken' pos pos' with
  | nil whole =>
    have closes := Nesting.openError?_congr same pos.offset pos'.offset
    rw [takeRaw_nil, takeRaw_nil]
    cases closed : n.openError? pos.offset with
    | none =>
      rw [closes.2 closed]
      exact .ok (takings_nil (.nil whole) _ _ _ _)
    | some e =>
      cases closed' : n'.openError? pos'.offset with
      | none =>
        rw [closes.1 closed'] at closed
        cases closed
      | some e' => exact .error
  | @last z more =>
    have more' : m.more.isSome = true := by simp [more]
    rw [takeRaw_cons, takeRaw_cons, Nesting.stopsAt_congr same]
    split
    · exact .ok (takings_nil (.last more) _ _ _ _)
    · next goes =>
      rw [takeRaw_nil]
      cases closed : (n.next pos.offset '\n').openError? (pos.step '\n').offset with
      | some e => exact .stopped more'
      | none =>
        have passes := Bool.eq_false_iff.2 goes
        exact .lost more' ⟨Nesting.newline_passes quoted passes closed, rfl⟩
  | @cons c x x' free rest ih =>
    rw [takeRaw_cons, takeRaw_cons, Nesting.stopsAt_congr same]
    split
    · exact .ok (takings_nil (.cons free rest) _ _ _ _)
    · have later := ih (Nesting.next_congr same pos.offset pos'.offset c) (Nesting.quoted_next quoted _ c)
        (c :: taken) (c :: taken') (pos.step c) (pos'.step c)
      exact later.mono (fun _ => id) fun _ _ => Takings.cons free
  | @newline x x' on rest ih =>
    have quoted' : n'.shape.Quoted := by rwa [same]
    rw [takeRaw_cons, takeRaw_cons, takeRaw_cons, Nesting.stopsAt_return ret,
      Nesting.stopsAt_next_return quoted', Nesting.stopsAt_congr same, if_neg Bool.false_ne_true]
    split
    · exact .ok ⟨[], ['\r'], by simp, by simp, ⟨[], .nil rfl, .inr rfl⟩, .cons (by simp) rest⟩
    · have next := Nesting.shape_next_return quoted same pos.offset pos'.offset (pos'.step '\r').offset
      have later := ih next (Nesting.quoted_next quoted _ '\n') ('\n' :: taken)
        ('\n' :: '\r' :: taken') (pos.step '\n') ((pos'.step '\r').step '\n')
      exact later.mono (fun _ => id) fun _ _ => Takings.newline on

end Respelling

namespace Reader

variable {m : Respelling} {loses : Prop} {x x' : List Char} {stop : Char → Bool}

theorem tracks_rawText (ret : stop '\r' = false) (h : m.Spells x x') :
    Tracks m (stop '\n' = false) (rawText stop) (rawText stop) x x' (m.Leaves m.SpellsText) := by
  rintro c c' rfl rfl
  have taken := h.takeRaw ret (rfl : Nesting.shape {} = Nesting.shape {}) (Shape.quoted_closed 0)
    [] [] c.pos c'.pos
  rw [rawText, rawText]
  generalize takeRaw stop {} [] c.pos c.rest = o, takeRaw stop {} [] c'.pos c'.rest = o' at taken
  cases taken with
  | @ok s s' related =>
    obtain ⟨w, w', first, second, takes, left⟩ := related
    refine .ok ⟨?_, left⟩
    have trimmed := takes.trim
    rwa [Respelling.SpellsText, String.toList_ofList, String.toList_ofList, first, second]
  | error => exact .error
  | stopped more => exact .stopped more
  | lost more ended => exact .lost more ended

theorem tracks_someText (ret : stop '\r' = false) (expected : Expected) (h : m.Spells x x') :
    Tracks m (stop '\n' = false) (someText stop expected) (someText stop expected) x x'
      (m.Leaves m.SpellsText) := by
  refine (tracks_rawText ret h).bind (fun s s' y y' spelt => ?_) fun loses s => ?_
  · exact .ite spelt.1.eq_empty_iff (fun _ => tracks_unexpected _ _) fun _ => tracks_pure spelt
  · exact Forward.shuts (.ite (moves_unexpected _ _) (forward_pure _)) loses

/-- Text that newlines stop is not lost. -/
theorem tracks_someText_line (newline : stop '\n' = true) (ret : stop '\r' = false)
    (expected : Expected) (h : m.Spells x x') :
    Tracks m loses (someText stop expected) (someText stop expected) x x' (m.Leaves m.SpellsText) :=
  (tracks_someText ret expected h).mono (by simp [newline]) fun _ _ _ _ => id

/-! ## Ends -/

section

variable {α : Type} {r r' : Reader α} {Q : α → α → List Char → List Char → Prop}

/-- Where the first text ends and the second one goes on, the first reader fails or loses the text. -/
theorem tracks_seam (more : m.more = some x') (shuts : Shuts loses r) :
    Tracks m loses r r' [] x' Q := by
  intro c c' start start'
  have more' : m.more.isSome = true := by simp [more]
  cases run : r c with
  | error e => exact .stopped more'
  | ok s => exact .lost more' (shuts c s.1 s.2 start run)

/-- What follows a newline is tracked if it fails where the first text ends. -/
theorem tracks_follows (h : m.Follows x x') (inside : m.Spells x x' → Tracks m loses r r' x x' Q)
    (shuts : Shuts loses r) : Tracks m loses r r' x x' Q := by
  rcases h with spells | ⟨rfl, more⟩
  · exact inside spells
  · exact tracks_seam more shuts

end

theorem shuts_skipBlanks {α : Type} {f : Unit → Reader α} (h : Shuts loses (f ())) :
    Shuts loses (skipBlanks >>= f) :=
  Shuts.after (reads_skipBlanks_stay .nil) h

theorem shuts_eat {α : Type} {ch : Char} {f : Bool → Reader α} (h : Shuts loses (f false)) :
    Shuts loses (eat ch >>= f) :=
  Shuts.after (reads_eat_no .nil) h

theorem shuts_eatKeyword {α : Type} {keyword : String} (nonempty : keyword.toList ≠ [])
    {f : Bool → Reader α} (h : Shuts loses (f false)) : Shuts loses (eatKeyword keyword >>= f) :=
  Shuts.after (reads_eatKeyword_no (x := []) nonempty.symm) h

theorem shuts_someText {α : Type} (expected : Expected) {f : String → Reader α} :
    Shuts loses (someText stop expected >>= f) := by
  have text : Reads (rawText stop) [] [] (· = "") := reads_rawText (r := []) rfl .nil
  have fails : Gives (someText stop expected) [] fun _ _ => False :=
    text.goesOn.gives (gives_unexpected _)
  exact fails.bind fun _ _ => False.elim

/-! ## Comments -/

/-- The two comments say the same. -/
def SameRemark (r r' : Remark) : Prop :=
  r.comment.unlocated = r'.comment.unlocated

/-- The same, of comments one after the other. -/
def SameRemarks (rs rs' : List Remark) : Prop :=
  rs.map (·.comment.unlocated) = rs'.map (·.comment.unlocated)

/-- The carriage returns at the end of a line are dropped in both texts. -/
theorem tracks_line (h : m.Spells x x') :
    Tracks m False (readWhile fun c => c ≠ '\n') (readWhile fun c => c ≠ '\n') x x' fun a a' y y' =>
      Text.dropTrailing '\r' a = Text.dropTrailing '\r' a' ∧ m.Aligned y y' := by
  rintro c c' rfl rfl
  refine .ok ⟨?_, h.skip_line rfl rfl⟩
  rcases h.line (p := fun c => c ≠ '\n') rfl rfl with same | ret
  · exact congrArg _ same.symm
  · rw [Text.dropTrailing, Text.dropTrailing, ret, List.reverse_append]
    simp

theorem tracks_remark? (h : m.Aligned x x') :
    Tracks m False remark? remark? x x' (Offered SameRemark m.Aligned x x') := by
  refine tracks_here fun _ _ => (tracks_eat rfl h.spells).branch
    (fun y y' left => ?_) (tracks_pure .none)
  have goesOn : ∀ a a' z z', Tested m.Spells y y' a a' z z' → m.Spells z z' := by
    rintro a a' z z' (here | _)
    · exact here
    · exact left
  refine (tracks_eat rfl left).andThen fun _ _ _ _ space =>
    (tracks_line (goesOn _ _ _ _ space)).andThen fun _ _ _ _ line => tracks_here fun _ _ =>
      tracks_locate _ _ _ _ fun _ _ => tracks_pure (.some ?_ line.2)
  rw [SameRemark, Comment.unlocated, Comment.unlocated, line.1]

/-- The lines end with comments that say the same, and with a newline or with the texts. -/
def EndsLine (m : Respelling) (o o' : Option Remark) (y y' : List Char) : Prop :=
  SameRemarks o.toList o'.toList ∧ m.Follows y y'

theorem tracks_finishLine (h : m.Spells x x') :
    Tracks m False finishLine finishLine x x' (EndsLine m) := by
  -- Behind the spaces and the comment both texts are at the end of a line.
  have last : ∀ (o o' : Option Remark) (y y' : List Char), SameRemarks o.toList o'.toList →
      m.Aligned y y' → Tracks m False
        (atEnd >>= fun e => if e = true then pure o
          else eat '\n' >>= fun b => if b = true then pure o else unexpected .endOfLine)
        (atEnd >>= fun e => if e = true then pure o'
          else eat '\n' >>= fun b => if b = true then pure o' else unexpected .endOfLine)
        y y' (EndsLine m) := by
    intro o o' y y' same aligned
    refine tracks_atEnd aligned.spells (.ite .rfl (fun _ => tracks_pure ⟨same, .inl aligned.spells⟩)
      fun _ => ?_)
    exact (tracks_eat_newline aligned).branch (fun _ _ follows => tracks_pure ⟨same, follows⟩)
      (tracks_unexpected _ _)
  refine (tracks_skipSpaces h).andThen fun _ _ y y' aligned => (tracks_remark? aligned).option
    (fun r r' z z' same aligned => last (some r) (some r') z z' ?_ aligned)
    (last none none y y' rfl aligned)
  exact congrArg (fun c => [c]) same

end Reader

end InterfaceFile
