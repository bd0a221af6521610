import InterfaceFile.Proofs.Reader.Pointed
import InterfaceFile.Reader.Statement

/-!
# Statements whose errors point into the text

The readers below the level of a file, one lemma for each. Most of them only pass on the errors of their
parts. Those that keep a position for an error further on are raw texts (their open brackets and
literals), lists (their opening parenthesis), the operations of signatures and the ends of methods; and
comments keep their span, because they can turn out to be out of place.
-/

namespace InterfaceFile

variable {α β : Type} {o b c d : Cursor} {p : Position}

/-- The comments that were read inside a statement. -/
def Statement.remarks : Statement → List Remark
  | .leaf _ remarks => remarks
  | .sig _ remarks => remarks
  | .header _ => []

namespace Reader

/-! ## Comments -/

/-- A comment that is read is shown by its span; if there is none, nothing is read. -/
theorem points_remark? (reached : o.Reaches c) : Points o remark? c fun m d =>
    (m = none → d = c) ∧ ∀ remark ∈ m, o.Shows remark.span := by
  refine points_here.bind fun start c' _ at_start => ?_
  obtain ⟨rfl, rfl⟩ := at_start
  refine (points_eat '#').bind fun found c₁ forward eaten => .ite (fun found => ?_) fun missing => ?_
  · have reached₁ := reached.trans forward
    refine (pointed_eat _ c₁ reached₁).bind fun _ c₂ forward₂ _ => ?_
    refine (pointed_readWhile _ c₂ (reached₁.trans forward₂)).bind fun text c₃ forward₃ _ => ?_
    refine points_here.bind fun stop c₄ _ at_stop => ?_
    obtain ⟨rfl, rfl⟩ := at_stop
    refine (points_locate _ _).bind fun loc c₅ _ located => points_pure ⟨nofun, ?_⟩
    rintro _ ⟨⟩
    exact reached.shows (forward.trans (forward₂.trans forward₃))
  · rw [if_neg missing] at eaten
    exact points_pure ⟨fun _ => eaten.1, nofun⟩

theorem pointed_remark? : Pointed o remark? fun m => ∀ remark ∈ m, o.Shows remark.span :=
  fun _ reached => (points_remark? reached).mono fun _ _ _ noted => noted.2

theorem pointed_finishLine : Pointed o finishLine fun m => ∀ remark ∈ m, o.Shows remark.span :=
  pointed_skipSpaces.andThen fun _ => pointed_remark?.bind fun _ noted =>
    (pointed_look _).andThen fun _ => .ite (pointed_pure noted) <|
      (pointed_eat _).andThen fun _ => .ite (pointed_pure noted) (pointed_unexpected _)

/-! ## Raw texts -/

/-- The open brackets and the open literal stand in the text read since `o`. -/
structure Noticed (o c : Cursor) (n : Nesting) : Prop where
  brackets : ∀ b ∈ n.brackets, o.Shows (.delimiter b.offset)
  literal : ∀ l ∈ n.literal, ∃ p, o.Passed c p ∧ p.offset = l.offset

theorem Noticed.start (o c : Cursor) : Noticed o c {} where
  brackets _ member := absurd member List.not_mem_nil
  literal _ held := nomatch held

/-- An opening bracket is one byte. -/
theorem utf8Size_opener {ch : Char} (h : isOpener ch = true) : ch.utf8Size = 1 := by
  simp only [isOpener, Bool.or_eq_true, decide_eq_true_eq] at h
  rcases h with (rfl | rfl) | rfl <;> rfl

theorem Noticed.next {n : Nesting} {ch : Char} (h : Noticed o c n) (reached : o.Reaches c)
    (further : c.Reaches d) (pos : d.pos = c.pos.step ch) :
    Noticed o d (n.next c.pos.offset ch) := by
  have literal : ∀ l ∈ n.literal, ∃ p, o.Passed d p ∧ p.offset = l.offset := by
    intro l held
    obtain ⟨p, passed, same⟩ := h.literal l held
    exact ⟨p, passed.forward further, same⟩
  unfold Nesting.next
  split
  · next l held =>
    obtain ⟨p, passed, same⟩ := literal l held
    split_ifs
    · refine ⟨h.brackets, ?_⟩
      rintro _ ⟨⟩
      exact ⟨p, passed, same⟩
    · refine ⟨h.brackets, ?_⟩
      rintro _ ⟨⟩
      exact ⟨p, passed, same⟩
    · exact ⟨h.brackets, nofun⟩
    · exact ⟨h.brackets, literal⟩
  · split_ifs with opens closes quotes
    · refine ⟨List.forall_mem_cons.2 ⟨?_, h.brackets⟩, literal⟩
      have shown := reached.shows further
      rwa [pos, Position.spanTo, Position.step, utf8Size_opener opens] at shown
    · exact ⟨fun b member => h.brackets b (List.mem_of_mem_tail member), literal⟩
    · refine ⟨h.brackets, ?_⟩
      rintro _ ⟨⟩
      exact ⟨c.pos, reached.passed.forward further, rfl⟩
    · exact ⟨h.brackets, literal⟩

/-- What is still open at the end of the text is shown where it was opened. -/
theorem Noticed.shows {n : Nesting} {e : ReadError} (h : Noticed o c n)
    (wrong : n.openError? c.pos.offset = some e) : o.Shows e.span := by
  unfold Nesting.openError? at wrong
  split at wrong
  · next _ l held =>
    cases wrong
    obtain ⟨p, passed, same⟩ := h.literal l held
    exact same ▸ passed.shows
  · next b _ _ brackets =>
    cases wrong
    exact h.brackets b (brackets ▸ List.mem_cons_self)
  · cases wrong

theorem shows_takeRaw {stop : Char → Bool} {n : Nesting} {taken : List Char} {e : ReadError}
    (reached : o.Reaches c) (h : Noticed o c n) (wrong : takeRaw stop n taken c.pos c.rest = .error e) :
    o.Shows e.span := by
  obtain ⟨file, pos, text⟩ := c
  induction text generalizing n taken pos with
  | nil =>
    simp only [takeRaw] at wrong
    split at wrong
    · next e' opened =>
      cases wrong
      exact h.shows opened
    · cases wrong
  | cons ch text ih =>
    simp only [takeRaw] at wrong
    split at wrong
    · cases wrong
    · have further : Cursor.Reaches ⟨file, pos, ch :: text⟩ ⟨file, pos.step ch, text⟩ :=
        ⟨[ch], rfl, rfl⟩
      exact ih _ (reached.trans further) (h.next reached further rfl) wrong

theorem pointed_rawText (stop : Char → Bool) : Pointed o (rawText stop) fun _ => True := by
  refine fun c reached => ⟨fun a d run => ⟨(moves_rawText stop c a d run).1, trivial⟩, fun e run => ?_⟩
  unfold rawText at run
  split at run
  · next wrong =>
    cases run
    exact shows_takeRaw reached (.start o c) wrong
  · cases run

theorem pointed_someText (stop : Char → Bool) (expected : Expected) :
    Pointed o (someText stop expected) fun _ => True :=
  (pointed_rawText stop).andThen fun _ => .ite (pointed_unexpected _) (pointed_pure trivial)

/-! ## Arguments -/

theorem pointed_parenArgsStep (args : List String) :
    Pointed o (parenArgsStep args) fun _ => True :=
  pointed_skipBlanks.andThen fun _ => (pointed_eat _).andThen fun _ => .ite (pointed_pure trivial) <|
    (pointed_someText _ _).andThen fun _ => pointed_skipBlanks.andThen fun _ =>
      (pointed_eat _).andThen fun _ => .ite (pointed_pure trivial) <|
        (pointed_expect _ _).andThen fun _ => pointed_pure trivial

theorem pointed_parenArgs : Pointed o parenArgs fun _ => True :=
  (pointed_expect _ _).andThen fun _ => pointed_loop pointed_parenArgsStep _

theorem pointed_bareArgsStep (args : List String) : Pointed o (bareArgsStep args) fun _ => True :=
  pointed_skipSpaces.andThen fun _ => (pointed_look _).andThen fun _ => .ite (pointed_pure trivial) <|
    (pointed_someText _ _).andThen fun _ => (pointed_eat _).andThen fun _ =>
      .ite (pointed_pure trivial) (pointed_pure trivial)

theorem pointed_callArgs : Pointed o callArgs fun _ => True :=
  pointed_skipSpaces.andThen fun _ => (pointed_look _).andThen fun _ =>
    .ite pointed_parenArgs (pointed_loop pointed_bareArgsStep _)

theorem pointed_callBlock? : Pointed o callBlock? fun _ => True :=
  pointed_skipSpaces.andThen fun _ => (pointed_eat _).andThen fun _ => .ite
    ((pointed_rawText _).andThen fun _ => (pointed_expect _ _).andThen fun _ => pointed_pure trivial)
    (pointed_pure trivial)

/-! ## Lists -/

/-- The parenthesis that was just read is shown as a delimiter. -/
theorem shows_paren (reached : o.Reaches c) (forward : c.Reaches d) (read : d.pos = c.pos.step '(') :
    o.Shows (.delimiter c.pos.offset) := by
  have shown := reached.shows forward
  rwa [read, Position.spanTo, Position.step] at shown

theorem pointed_listStep {kind : EntryKind α} (entry : Pointed o kind.read fun _ => True) {start : Nat}
    (opened : o.Shows (.delimiter start)) (l : OpenList α) :
    Pointed o (listStep kind start l) fun _ => True := by
  refine pointed_skipBlanks.andThen fun _ => (pointed_eat _).andThen fun _ =>
    .ite (pointed_pure trivial) <| pointed_remark?.bind fun m noted => ?_
  cases m with
  | some remark =>
    cases l.entries with
    | nil => exact pointed_fail (noted remark rfl)
    | cons last earlier => exact pointed_pure trivial
  | none =>
    exact (pointed_look _).andThen fun _ => .ite (pointed_fail opened) <| .ite
      ((pointed_eat _).andThen fun _ => .ite (pointed_pure trivial) (pointed_unexpected _))
      (entry.andThen fun _ => pointed_pure trivial)

theorem pointed_list {kind : EntryKind α} (entry : Pointed o kind.read fun _ => True) {start : Nat}
    (opened : o.Shows (.delimiter start)) : Pointed o (list kind start) fun _ => True :=
  pointed_loop (pointed_listStep entry opened) _

theorem pointed_collector? : Pointed o collector? fun _ => True :=
  (pointed_eatText (by simp)).andThen fun _ => .ite (pointed_pure trivial) <|
    (pointed_eat _).andThen fun _ => .ite (pointed_pure trivial) <|
      (pointed_eat _).andThen fun _ => .ite (pointed_pure trivial) (pointed_pure trivial)

theorem pointed_paramShape : Pointed o paramShape fun _ => True :=
  (pointed_eat _).andThen fun _ => .ite
    (pointed_skipSpaces.andThen fun _ => (pointed_look _).andThen fun _ => .ite (pointed_pure trivial)
      ((pointed_rawText _).andThen fun _ => pointed_pure trivial))
    (pointed_skipSpaces.andThen fun _ => (pointed_eat _).andThen fun _ => .ite
      (pointed_skipSpaces.andThen fun _ => (pointed_someText _ _).andThen fun _ =>
        pointed_pure trivial)
      (pointed_pure trivial))

theorem pointed_param : Pointed o param fun _ => True :=
  pointed_collector?.andThen fun
    | some _ => pointed_identifier?.andThen fun _ => pointed_pure trivial
    | none => pointed_identifier?.andThen fun
      | some _ => pointed_paramShape.andThen fun _ => pointed_pure trivial
      | none => pointed_unexpected _

theorem pointed_sigParam : Pointed o sigParam fun _ => True :=
  pointed_identifier?.andThen fun
    | some _ => (pointed_expect _ _).andThen fun _ => pointed_skipSpaces.andThen fun _ =>
      (pointed_someText _ _).andThen fun _ => pointed_pure trivial
    | none => pointed_unexpected _

/-! ## Signatures -/

/-- An operation without a meaning is shown with its name. -/
theorem points_sigOp {start : Position} (passed : o.Passed c start) (reached : o.Reaches c)
    (name : String) : Points o (sigOp start name) c fun _ _ => True := by
  unfold sigOp
  split
  · exact points_pure trivial
  · exact points_pure trivial
  · exact points_pure trivial
  · exact points_pure trivial
  · refine points_here.bind fun paren c' _ at_paren => ?_
    obtain ⟨rfl, rfl⟩ := at_paren
    refine (points_expect _ _ reached).bind fun _ d forward read => ?_
    have entries : Pointed o (list sigParams c'.pos.offset) fun _ => True :=
      pointed_list pointed_sigParam (shows_paren reached forward read)
    exact entries.andThen (fun _ => pointed_pure trivial) d (reached.trans forward)
  · exact (pointed_expect _ _).andThen (fun _ => (pointed_rawText _).andThen fun _ =>
      (pointed_expect _ _).andThen fun _ => pointed_pure trivial) c reached
  · exact pointed_parenArgs.andThen (fun _ => pointed_pure trivial) c reached
  · exact pointed_parenArgs.andThen (fun _ => pointed_pure trivial) c reached
  · refine points_here.bind fun stop c' _ at_stop => points_fail ?_
    obtain ⟨rfl, rfl⟩ := at_stop
    exact passed.shows

theorem pointed_sigChainStep {skip : Reader Unit} (h : Pointed o skip fun _ => True)
    (ops : List SigOp) : Pointed o (sigChainStep skip ops) fun _ => True := by
  refine fun c reached => points_here.bind fun start c' _ at_start => ?_
  obtain ⟨rfl, rfl⟩ := at_start
  refine (pointed_identifier? c' reached).bind fun name d forward _ => ?_
  have reached' := reached.trans forward
  cases name with
  | none => exact points_unexpected _ reached'
  | some name =>
    refine (points_sigOp (reached.passed.forward forward) reached' name).bind fun op e further _ => ?_
    exact h.andThen (fun _ => (pointed_eat _).andThen fun _ =>
      .ite (h.andThen fun _ => pointed_pure trivial) (pointed_pure trivial)) e (reached'.trans further)

theorem pointed_sigChain {skip : Reader Unit} (forward : Forward skip)
    (h : Pointed o skip fun _ => True) : Pointed o (sigChain skip forward) fun _ => True :=
  pointed_loop (pointed_sigChainStep h) _

theorem pointed_sig : Pointed o sig fun s => ∀ remark ∈ s.2, o.Shows remark.span :=
  pointed_skipSpaces.andThen fun _ => (pointed_eat _).andThen fun _ => .ite
    (pointed_skipSpaces.andThen fun _ => (pointed_eat _).andThen fun _ => .ite (pointed_pure nofun) <|
      (pointed_sigChain _ pointed_skipSpaces).andThen fun _ => pointed_skipSpaces.andThen fun _ =>
        (pointed_expect _ _).andThen fun _ => pointed_pure nofun)
    ((pointed_eatKeyword _).andThen fun _ => .ite
      (pointed_finishLine.bind fun _ noted => pointed_skipBlanks.andThen fun _ =>
        (pointed_eatKeyword _).andThen fun _ => .ite (pointed_pure noted) <|
          (pointed_sigChain _ pointed_skipBlanks).andThen fun _ => pointed_skipBlanks.andThen fun _ =>
            (pointed_expectKeyword _ _).andThen fun _ => pointed_pure noted)
      (pointed_unexpected _))

/-! ## Statements -/

theorem pointed_pathStep (path : List Char) : Pointed o (pathStep path) fun _ => True :=
  (pointed_word? _).andThen fun
    | none => pointed_unexpected _
    | some _ => (pointed_look _).andThen fun _ => .ite
      ((pointed_eatText (by simp)).andThen fun _ => pointed_pure trivial) (pointed_pure trivial)

theorem pointed_constantName : Pointed o constantName fun _ => True :=
  (pointed_eatText (by simp)).andThen fun _ => pointed_loop pointed_pathStep _

theorem pointed_superclass? : Pointed o superclass? fun _ => True :=
  pointed_skipSpaces.andThen fun _ => (pointed_eat _).andThen fun _ => .ite
    (pointed_skipSpaces.andThen fun _ => (pointed_someText _ _).andThen fun _ => pointed_pure trivial)
    (pointed_pure trivial)

theorem pointed_classHeader : Pointed o classHeader fun _ => True :=
  pointed_skipSpaces.andThen fun _ => (pointed_eatText (by simp)).andThen fun _ => .ite
    (pointed_skipSpaces.andThen fun _ => (pointed_expectKeyword _ _).andThen fun _ =>
      pointed_pure trivial)
    (pointed_constantName.andThen fun _ => pointed_superclass?.andThen fun _ => pointed_pure trivial)

/-- A method without an `end` is shown from its name on. -/
theorem points_methodEnd {start : Position} (passed : o.Passed c start) (reached : o.Reaches c) :
    Points o (methodEnd start) c fun m _ => ∀ remark ∈ m, o.Shows remark.span := by
  refine (pointed_skipSpaces c reached).bind fun _ c₁ forward₁ _ => ?_
  have reached₁ := reached.trans forward₁
  refine (pointed_eat _ c₁ reached₁).bind fun _ c₂ forward₂ _ => ?_
  have reached₂ := reached₁.trans forward₂
  refine .ite (fun _ => ?_) fun _ => ?_
  · exact pointed_skipSpaces.andThen (fun _ => (pointed_expectKeyword _ _).andThen fun _ =>
      pointed_pure nofun) c₂ reached₂
  · refine points_here.bind fun stop c₃ _ at_stop => ?_
    obtain ⟨rfl, rfl⟩ := at_stop
    have shown := ((passed.forward forward₁).forward forward₂).shows
    exact pointed_finishLine.bind (fun _ noted => pointed_skipBlanks.andThen fun _ =>
      (pointed_eatKeyword _).andThen fun _ => .ite (pointed_pure noted) (pointed_fail shown)) _ reached₂

theorem pointed_methodParamList : Pointed o methodParamList fun _ => True := by
  refine fun c reached => points_here.bind fun paren c' _ at_paren => ?_
  obtain ⟨rfl, rfl⟩ := at_paren
  refine (points_eat _).bind fun found d forward read => .ite (fun found => ?_) fun _ => ?_
  · rw [if_pos found] at read
    have entries : Pointed o (list methodParams c'.pos.offset) fun _ => True :=
      pointed_list pointed_param (shows_paren reached forward read.2)
    exact entries d (reached.trans forward)
  · exact points_pure trivial

theorem shows_toList {m : Option Remark} (noted : ∀ remark ∈ m, o.Shows remark.span) :
    ∀ remark ∈ m.toList, o.Shows remark.span :=
  fun remark member => noted remark (Option.mem_toList.1 member)

theorem pointed_method (visibility : Visibility) :
    Pointed o (method visibility) fun s => ∀ remark ∈ s.remarks, o.Shows remark.span := by
  refine pointed_skipSpaces.andThen fun _ => (pointed_eatText (by simp)).andThen fun _ => ?_
  refine fun c reached => points_here.bind fun start c' _ at_start => ?_
  obtain ⟨rfl, rfl⟩ := at_start
  refine (pointed_readWhile _ c' reached).bind fun name d forward _ => ?_
  have reached' := reached.trans forward
  refine .ite (fun _ => points_unexpected _ reached') fun _ => ?_
  refine (pointed_methodParamList d reached').bind fun params e further _ => ?_
  refine (points_methodEnd ((reached.passed.forward forward).forward further)
    (reached'.trans further)).bind fun m _ _ noted => ?_
  exact points_pure (shows_toList noted)

theorem pointed_attributes (visibility : Visibility) (access : Access) :
    Pointed o (attributes visibility access) fun s => ∀ remark ∈ s.remarks, o.Shows remark.span :=
  pointed_callArgs.andThen fun _ => .ite (pointed_unexpected _) (pointed_pure nofun)

theorem pointed_callStatement (callee : Callee) :
    Pointed o (callStatement callee) fun s => ∀ remark ∈ s.remarks, o.Shows remark.span :=
  have call : Pointed o (callOf callee) fun _ => True :=
    pointed_callArgs.andThen fun _ => pointed_callBlock?.andThen fun _ => pointed_pure trivial
  call.andThen fun _ => pointed_pure nofun

theorem pointed_afterVisibility (visibility : Visibility) :
    Pointed o (afterVisibility visibility) fun s => ∀ remark ∈ s.remarks, o.Shows remark.span :=
  pointed_skipSpaces.andThen fun _ => (pointed_word? _).andThen fun
    | some none => pointed_method _
    | some (some _) => pointed_attributes _ _
    | none => pointed_callArgs.andThen fun _ => pointed_pure nofun

theorem pointed_keywordStatement (keyword : Keyword) :
    Pointed o (keywordStatement keyword) fun s => ∀ remark ∈ s.remarks, o.Shows remark.span := by
  cases keyword with
  | moduleWord =>
    exact pointed_skipSpaces.andThen fun _ => pointed_constantName.andThen fun _ => pointed_pure nofun
  | classWord => exact pointed_classHeader.andThen fun _ => pointed_pure nofun
  | defWord => exact pointed_method _
  | sigWord => exact pointed_sig.bind fun _ noted => pointed_pure (shows_toList noted)
  | visibility level => exact pointed_afterVisibility _
  | attrWord access => exact pointed_attributes _ _
  | call callee => exact pointed_callStatement _

theorem pointed_constant :
    Pointed o constant fun s => ∀ remark ∈ s.remarks, o.Shows remark.span :=
  pointed_constantName.andThen fun _ => pointed_skipSpaces.andThen fun _ =>
    (pointed_look _).andThen fun _ => .ite (pointed_pure nofun) <|
      (pointed_eat _).andThen fun _ => .ite
        (pointed_skipSpaces.andThen fun _ => (pointed_word? _).andThen fun
          | some _ => pointed_callStatement _
          | none => (pointed_someText _ _).andThen fun _ => pointed_pure nofun)
        (pointed_pure nofun)

theorem pointed_otherCall (name : String) :
    Pointed o (otherCall name) fun s => ∀ remark ∈ s.remarks, o.Shows remark.span :=
  (pointed_eat _).andThen fun _ => .ite
    (pointed_skipSpaces.andThen fun _ => (pointed_look _).andThen fun _ => .ite (pointed_pure nofun)
      (pointed_callStatement _))
    ((pointed_eat _).andThen fun _ => .ite (pointed_callStatement _) (pointed_callStatement _))

theorem pointed_statement :
    Pointed o statement fun s => ∀ remark ∈ s.remarks, o.Shows remark.span :=
  (pointed_word? _).andThen fun
    | some keyword => pointed_keywordStatement keyword
    | none => (pointed_word? _).andThen fun
      | some _ => pointed_callStatement _
      | none => (pointed_look _).andThen fun _ => .ite pointed_constant <|
        pointed_identifier?.andThen fun
          | some name => pointed_otherCall name
          | none => pointed_unexpected _

end Reader

end InterfaceFile
