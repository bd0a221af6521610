import InterfaceFile.Proofs.RoundTrip.Printable

/-!
# Arguments are read back
-/

namespace InterfaceFile

namespace Text

theorem join_singleton (separator a : String) : join separator [a] = a :=
  String.intercalate_singleton

theorem join_cons_cons (separator a b : String) (rest : List String) :
    join separator (a :: b :: rest) = a ++ separator ++ join separator (b :: rest) := by
  rw [join, join, String.intercalate_cons_cons]

end Text

namespace Reader

variable {x : List Char}

theorem stops_of_closer {ch : Char} (closer : isCloser ch = true) (h : Stops isCloser x) :
    Stops (· = ch) x :=
  h.mono fun c same => by
    rw [of_decide_eq_true same]
    exact closer

theorem reads_skipBlanks_lead {lead : List Char} (blank : ∀ c ∈ lead, c = ' ')
    (h : Stops Text.isBlank x) : Reads skipBlanks (lead ++ x) x (· = ()) := by
  have read := reads_skipBlanks (x := lead ++ x)
  rwa [h.dropWhile_append fun c member => by rw [blank c member]; decide] at read

theorem reads_skipSpaces_lead {lead : List Char} (blank : ∀ c ∈ lead, c = ' ')
    (h : Stops isLineSpace x) : Reads skipSpaces (lead ++ x) x (· = ()) := by
  have read := reads_skipSpaces (x := lead ++ x)
  rwa [h.dropWhile_append fun c member => by rw [blank c member]; decide] at read

/-! ## Arguments in parentheses -/

theorem reads_parenArgsLoop : ∀ (args before : List String) (lead : List Char), args ≠ [] →
    (∀ c ∈ lead, c = ' ') → (∀ a ∈ args, Clean (· = ',') a) →
    Reads (loop parenArgsStep (fun args => (advances_parenArgsStep args).moves) before)
      (lead ++ ((Text.join ", " args).toList ++ ')' :: x)) x (· = before.reverse ++ args)
  | [], _, _, nonempty, _, _ => absurd rfl nonempty
  | [a], before, lead, _, blank, clean => by
    have ca := clean a List.mem_cons_self
    rw [Text.join_singleton]
    refine Reads.done ?_
    refine (reads_skipBlanks_lead blank (ca.stops_blank _)).followedBy ?_
    refine (reads_eat_no (stops_of_closer rfl (ca.stops_closer _))).followedBy ?_
    refine (reads_someText ca (.cons rfl)).followedBy ?_
    refine (reads_skipBlanks_stay (.cons (by decide))).followedBy ?_
    refine (reads_eat_no (.cons rfl)).followedBy ?_
    refine (reads_expect ')' _).followedBy (reads_pure ⟨_, rfl, ?_⟩)
    rw [List.reverse_cons]
  | a :: b :: rest, before, lead, _, blank, clean => by
    have ca := clean a List.mem_cons_self
    have later := reads_parenArgsLoop (b :: rest) (a :: before) [' '] (by simp) (by simp)
      fun c member => clean c (List.mem_cons_of_mem _ member)
    have text : (Text.join ", " (a :: b :: rest)).toList ++ ')' :: x =
        a.toList ++ ',' :: ([' '] ++ ((Text.join ", " (b :: rest)).toList ++ ')' :: x)) := by
      rw [Text.join_cons_cons]
      simp
    rw [text]
    refine Reads.againWith ?_ (later.mono fun _ same => ?_)
    · refine (reads_skipBlanks_lead blank (ca.stops_blank _)).followedBy ?_
      refine (reads_eat_no (stops_of_closer rfl (ca.stops_closer _))).followedBy ?_
      refine (reads_someText ca (.cons rfl)).followedBy ?_
      refine (reads_skipBlanks_stay (.cons (by decide))).followedBy ?_
      exact (reads_eat ',').followedBy (reads_pure rfl)
    · rw [same, List.reverse_cons, List.append_assoc]
      rfl

theorem reads_parenArgs {args : List String} (clean : ∀ a ∈ args, Clean (· = ',') a) :
    Reads parenArgs ('(' :: ((Text.join ", " args).toList ++ ')' :: x)) x (· = args) := by
  refine (reads_expect '(' _).followedBy ?_
  by_cases none : args = []
  · subst none
    refine Reads.done ?_
    refine (reads_skipBlanks_stay (.cons (by decide))).followedBy ?_
    exact (reads_eat ')').followedBy (reads_pure ⟨_, rfl, rfl⟩)
  · exact reads_parenArgsLoop args [] [] none (by simp) clean

/-! ## Bare arguments -/

/-- What may come after the arguments of a call: the end of the line, or a block. `left` is the same
    without the space before it. -/
def EndsArgs (tail left : List Char) : Prop :=
  (tail = left ∨ tail = ' ' :: left) ∧ ∃ c rest, left = c :: rest ∧ (c = '\n' ∨ c = '{')

variable {tail left : List Char}

theorem endsArgs_line : EndsArgs ('\n' :: x) ('\n' :: x) :=
  ⟨.inl rfl, _, _, rfl, .inl rfl⟩

theorem endsArgs_block : EndsArgs (' ' :: '{' :: x) ('{' :: x) :=
  ⟨.inr rfl, _, _, rfl, .inr rfl⟩

/-- Of what `p` does not hold in front of the end of arguments. -/
theorem EndsArgs.stops {p : Char → Bool} (h : EndsArgs tail left) (line : p '\n' = false)
    (block : p '{' = false) : Stops p left := by
  obtain ⟨-, c, rest, rfl, rfl | rfl⟩ := h
  · exact Stops.cons_iff.2 line
  · exact Stops.cons_iff.2 block

theorem EndsArgs.dropWhile_eq (h : EndsArgs tail left) : tail.dropWhile isLineSpace = left := by
  have stop : Stops isLineSpace left := h.stops rfl rfl
  rcases h.1 with rfl | rfl
  · exact stop.dropWhile_eq
  · rw [List.dropWhile_cons_of_pos (by decide), stop.dropWhile_eq]

theorem EndsArgs.reads_someText {a : String} {expected : Expected} (h : EndsArgs tail left)
    (clean : Clean endsArgument a) :
    Reads (someText endsArgument expected) (a.toList ++ tail) left (· = a) := by
  have ends : EndsRaw endsArgument left := h.stops rfl rfl
  rcases h.1 with rfl | rfl
  · exact Reader.reads_someText clean ends
  · exact reads_someText_space clean rfl ends

theorem bareArg_goes {a : String} (clean : Clean endsArgument a) (rest : List Char) :
    ((a.toList ++ rest).head?.all fun c => c = '\n' || c = '#' || c = '{' || c = ';') = false := by
  have stop := clean.stops_stop rest
  cases text : a.toList ++ rest with
  | nil => exact absurd (List.append_eq_nil_iff.1 text).1 clean.1
  | cons c cs =>
    rw [text, Stops.cons_iff, endsArgument] at stop
    simp only [Bool.or_eq_false_iff] at stop
    simp [stop]

theorem reads_bareArgsLoop (ends : EndsArgs tail left) : ∀ (args before : List String)
    (lead : List Char), args ≠ [] → (∀ c ∈ lead, c = ' ') → (∀ a ∈ args, Clean endsArgument a) →
    Reads (loop bareArgsStep moves_bareArgsStep before)
      (lead ++ ((Text.join ", " args).toList ++ tail)) left (· = before.reverse ++ args)
  | [], _, _, nonempty, _, _ => absurd rfl nonempty
  | [a], before, lead, _, blank, clean => by
    have ca := clean a List.mem_cons_self
    rw [Text.join_singleton]
    refine Reads.done ?_
    refine (reads_skipSpaces_lead blank (ca.stops_blank _).lineSpace).followedBy ?_
    refine (reads_look _).followedBy ?_
    rw [bareArg_goes ca]
    refine (ends.reads_someText ca).followedBy ?_
    refine (reads_eat_no (ends.stops rfl rfl)).followedBy (reads_pure ⟨_, rfl, ?_⟩)
    rw [List.reverse_cons]
  | a :: b :: rest, before, lead, _, blank, clean => by
    have ca := clean a List.mem_cons_self
    have later := reads_bareArgsLoop ends (b :: rest) (a :: before) [' '] (by simp) (by simp)
      fun c member => clean c (List.mem_cons_of_mem _ member)
    have text : (Text.join ", " (a :: b :: rest)).toList ++ tail =
        a.toList ++ ',' :: ([' '] ++ ((Text.join ", " (b :: rest)).toList ++ tail)) := by
      rw [Text.join_cons_cons]
      simp
    rw [text]
    refine Reads.againWith ?_ (later.mono fun _ same => ?_)
    · refine (reads_skipSpaces_lead blank (ca.stops_blank _).lineSpace).followedBy ?_
      refine (reads_look _).followedBy ?_
      rw [bareArg_goes ca]
      refine (Reader.reads_someText ca (.cons rfl)).followedBy ?_
      exact (reads_eat ',').followedBy (reads_pure rfl)
    · rw [same, List.reverse_cons, List.append_assoc]
      rfl

theorem reads_noArgs (ends : EndsArgs tail left) :
    Reads (loop bareArgsStep moves_bareArgsStep []) left left (· = []) := by
  refine Reads.done ?_
  refine (reads_skipSpaces_stay (ends.stops rfl rfl)).followedBy ?_
  refine (reads_look _).followedBy ?_
  obtain ⟨-, c, rest, rfl, rfl | rfl⟩ := ends
  · exact reads_pure ⟨_, rfl, rfl⟩
  · exact reads_pure ⟨_, rfl, rfl⟩

theorem reads_skipSpaces_to {text : List Char} (h : text.dropWhile isLineSpace = x) :
    Reads skipSpaces text x (· = ()) :=
  h ▸ reads_skipSpaces

/-- The first argument is followed by a comma or by nothing. -/
theorem join_cons (a : String) (rest : List String) : ∃ more,
    (Text.join ", " (a :: rest)).toList = a.toList ++ more ∧
      (more = [] ∨ ∃ more', more = ',' :: more') := by
  cases rest with
  | nil => exact ⟨[], by rw [Text.join_singleton, List.append_nil], .inl rfl⟩
  | cons b rest =>
    refine ⟨',' :: ' ' :: (Text.join ", " (b :: rest)).toList, ?_, .inr ⟨_, rfl⟩⟩
    rw [Text.join_cons_cons, String.append_assoc, String.toList_append, String.toList_append]
    rfl

theorem dropWhile_argsText {a : String} (clean : Clean endsArgument a) (rest : List String)
    (x : List Char) : ((Call.argsText false (a :: rest)).toList ++ x).dropWhile isLineSpace =
      (Text.join ", " (a :: rest)).toList ++ x := by
  obtain ⟨more, begins, -⟩ := join_cons a rest
  have front : Stops isLineSpace ((Text.join ", " (a :: rest)).toList ++ x) := by
    rw [begins, List.append_assoc]
    exact (clean.stops_blank _).lineSpace
  have text : (Call.argsText false (a :: rest)).toList ++ x =
      [' '] ++ ((Text.join ", " (a :: rest)).toList ++ x) := by
    simp [Call.argsText]
  rw [text, front.dropWhile_append (List.all_eq_true.1 rfl)]

/-- Bare arguments. The space before them may have been read. -/
theorem reads_callArgs_bare {args : List String} (bare : AreBareArgs args)
    (ends : EndsArgs tail left) {text : List Char} (alike : text.dropWhile isLineSpace =
      ((Call.argsText false args).toList ++ tail).dropWhile isLineSpace) :
    Reads callArgs text left (· = args) := by
  cases args with
  | nil =>
    refine (reads_skipSpaces_to (alike.trans ends.dropWhile_eq)).followedBy ?_
    refine (reads_look _).followedBy ?_
    have no : (decide (left.head? = some '(')) = false := by
      obtain ⟨-, c, rest, rfl, rfl | rfl⟩ := ends <;> rfl
    rw [no]
    exact reads_noArgs ends
  | cons a rest =>
    have ca := bare.1 a List.mem_cons_self
    obtain ⟨more, begins, -⟩ := join_cons a rest
    refine (reads_skipSpaces_to (alike.trans (dropWhile_argsText ca rest tail))).followedBy ?_
    refine (reads_look _).followedBy ?_
    have no : (decide (((Text.join ", " (a :: rest)).toList ++ tail).head? = some '(')) = false := by
      have stop := (bare.2 a rfl).append (y := more ++ tail) ca.1
      rw [begins, List.append_assoc]
      cases first : a.toList ++ (more ++ tail) with
      | nil => rfl
      | cons c cs =>
        rw [first, Stops.cons_iff] at stop
        simpa using stop
    rw [no]
    exact reads_bareArgsLoop ends (a :: rest) [] [] (by simp) (by simp) bare.1

theorem reads_callArgs_paren {args : List String} (nonempty : args ≠ [])
    (clean : ∀ a ∈ args, Clean (· = ',') a) {text : List Char} (alike : text.dropWhile isLineSpace =
      ((Call.argsText true args).toList ++ x).dropWhile isLineSpace) :
    Reads callArgs text x (· = args) := by
  have same : (Call.argsText true args).toList ++ x =
      '(' :: ((Text.join ", " args).toList ++ ')' :: x) := by
    simp [Call.argsText, nonempty]
  rw [same, Stops.dropWhile_eq (.cons rfl)] at alike
  refine (reads_skipSpaces_to alike).followedBy ?_
  refine (reads_look _).followedBy ?_
  exact reads_parenArgs clean

/-! ## Blocks -/

theorem reads_callBlock_none :
    Reads callBlock? ('\n' :: x) ('\n' :: x) (· = none) :=
  (reads_skipSpaces_stay (.cons rfl)).followedBy <|
    (reads_eat_no (.cons rfl)).followedBy (reads_pure rfl)

/-- A block after its opening brace. -/
theorem reads_block {b : String} (clean : b = "" ∨ Clean (· = '}') b) :
    Reads (rawText (· = '}')) (' ' :: (b.toList ++ ' ' :: '}' :: x)) ('}' :: x) (· = b) := by
  rcases clean with rfl | clean
  · exact (reads_rawText (r := [' ', ' ']) (x := '}' :: x) (by decide)
      (.cons rfl)).mono fun _ same => same
  · have read : Reads (rawText (· = '}')) ([' '] ++ (b.toList ++ [' ']) ++ '}' :: x) ('}' :: x)
        (· = b) :=
      reads_rawText_spaced clean (by simp) (by simp) rfl (.cons rfl)
    simpa using read

theorem reads_callBlock_some {b : String} (clean : b = "" ∨ Clean (· = '}') b)
    (lead : tail = '{' :: ' ' :: (b.toList ++ ' ' :: '}' :: x) ∨
      tail = ' ' :: '{' :: ' ' :: (b.toList ++ ' ' :: '}' :: x)) :
    Reads callBlock? tail x (· = some b) := by
  have spaces : Reads skipSpaces tail ('{' :: ' ' :: (b.toList ++ ' ' :: '}' :: x)) (· = ()) := by
    rcases lead with rfl | rfl
    · exact reads_skipSpaces_stay (.cons rfl)
    · exact reads_skipSpaces_one (.cons rfl)
  refine spaces.followedBy ?_
  refine (reads_eat '{').followedBy ?_
  refine (reads_block clean).followedBy ?_
  exact (reads_expect '}' _).followedBy (reads_pure rfl)

/-- The arguments and the block of a call, as they are printed before the end of the line. The space
    before them may have been read. -/
theorem reads_callOf {callee : Callee} {paren : Bool} {args : List String} {block : Option String}
    (fit : ArgsFit paren args) (cleanBlock : ∀ b ∈ block, b = "" ∨ Clean (· = '}') b) {text : List Char}
    (alike : text.dropWhile isLineSpace = ((Call.argsText paren args).toList ++
      ((Call.blockText block).toList ++ '\n' :: x)).dropWhile isLineSpace) :
    Reads (callOf callee) text ('\n' :: x) (· = { callee, args, block }) := by
  -- What is left after the arguments still has the block, perhaps with the space before it.
  obtain ⟨tail, left, ends, rfl, blocks⟩ : ∃ tail left, EndsArgs tail left ∧
      (Call.blockText block).toList ++ '\n' :: x = tail ∧
        ∀ y, (y = tail ∨ y = left) → Reads callBlock? y ('\n' :: x) (· = block) := by
    cases block with
    | none =>
      exact ⟨_, _, endsArgs_line, rfl, fun y same => by
        rcases same with rfl | rfl <;> exact reads_callBlock_none⟩
    | some b =>
      refine ⟨_, _, endsArgs_block (x := ' ' :: (b.toList ++ ' ' :: '}' :: '\n' :: x)), ?_, ?_⟩
      · simp [Call.blockText]
      · intro y same
        exact reads_callBlock_some (cleanBlock b rfl) same.symm
  have args : ∃ y, (y = (Call.blockText block).toList ++ '\n' :: x ∨ y = left) ∧
      Reads callArgs text y (· = args) := by
    cases paren with
    | false => exact ⟨left, .inr rfl, reads_callArgs_bare fit ends alike⟩
    | true =>
      by_cases none : args = []
      · subst none
        have bare : AreBareArgs [] := ⟨by simp, by simp⟩
        exact ⟨left, .inr rfl, reads_callArgs_bare bare ends alike⟩
      · exact ⟨_, .inl rfl, reads_callArgs_paren none fit alike⟩
  obtain ⟨y, place, read⟩ := args
  exact read.followedBy ((blocks y place).followedBy (reads_pure rfl))

end Reader

end InterfaceFile
