import InterfaceFile.Proofs.RoundTrip.ReadDeclaration

/-!
# Calls are read back

A called word may have a meaning of its own, and what follows it can change that meaning. A printable
call is one that is read as the call that it is.
-/

namespace InterfaceFile

namespace Reader

variable {x y : List Char} {o : PrintOptions} {P : Statement → Prop}

/-- What is printed after the called word. -/
def callTail (o : PrintOptions) (c : Call) : List Char :=
  (Call.argsText (Call.parenthesized o c.callee) c.args).toList ++ (Call.blockText c.block).toList

theorem toList_call (o : PrintOptions) (c : Call) : (c.render o).toList =
    (Call.assignment c.callee).toList ++ (c.callee.word.toList ++ callTail o c) := by
  simp [Call.render, callTail]

/-- What follows a called word is a space, a parenthesis or the line end. -/
theorem stops_callTail {p : Char → Bool} (o : PrintOptions) (c : Call) (space : p ' ' = false)
    (paren : p '(' = false) : Stops p (callTail o c) := by
  have block : Stops p (Call.blockText c.block).toList := by
    cases c.block with
    | none => exact .nil
    | some b => simp [Call.blockText, space]
  rw [callTail, Call.argsText]
  split
  · exact block
  · split
    · simp [paren]
    · simp [space]

/-- The arguments and the block are such as can be printed after the word. -/
def CleanArgs (o : PrintOptions) (c : Call) : Prop :=
  ArgsFit (Call.parenthesized o c.callee) c.args ∧ ∀ b ∈ c.block, b = "" ∨ Clean (· = '}') b

theorem reads_callStatement {c : Call} (h : CleanArgs o c) {text : List Char}
    (alike : text.dropWhile isLineSpace = (callTail o c ++ '\n' :: x).dropWhile isLineSpace) :
    Reads (callStatement c.callee) text ('\n' :: x) (· = .leaf (.call c) []) := by
  rw [callTail, List.append_assoc] at alike
  exact (reads_callOf h.1 h.2 alike).followedBy (reads_pure rfl)

theorem Reads.leaf {decl : Declaration} {r : Reader Statement} (same : decl.unlocated = decl)
    (h : Reads r x y (· = .leaf decl [])) :
    Reads r x y fun s => ∃ d, s = .leaf d [] ∧ d.unlocated = decl :=
  h.mono fun _ eq => ⟨decl, eq, same⟩

/-- A call whose word means this call. -/
theorem readsLeaf_call_keyword {callee : Callee} {args : List String} {block : Option String}
    (h : CleanArgs o { callee, args, block }) (name : IsName callee.word ∧ callee.word ≠ "end")
    (unassigned : Call.assignment callee = "")
    (means : Keyword.ofWord? callee.word = some (.call callee)) :
    ReadsLeaf (Call.render o { callee, args, block }).toList (.call { callee, args, block }) := by
  have stop : Stops isWordChar (callTail o { callee, args, block }) := stops_callTail o _ rfl rfl
  have text : (Call.render o { callee, args, block }).toList =
      callee.word.toList ++ callTail o { callee, args, block } := by
    rw [toList_call, unassigned]
    rfl
  rw [text]
  refine ⟨begins_word name.1 name.2 stop, fun x => ?_⟩
  rw [List.append_assoc]
  exact (reads_statement_keyword name.1 means (stop.line rfl) (reads_callStatement h rfl)).leaf rfl

theorem declared?_eq_none {word : String} (h : beginsDeclaration word = false) :
    (match Keyword.ofWord? word with
      | some .defWord => some none
      | some (.attrWord access) => some (some access)
      | _ => (none : Option (Option Access))) = none := by
  unfold beginsDeclaration at h
  cases found : Keyword.ofWord? word with
  | none => rfl
  | some keyword =>
    rw [found] at h
    cases keyword with
    | defWord => cases h
    | attrWord access => cases h
    | _ => rfl

/-- The arguments of a visibility marker. -/
theorem readsLeaf_call_visibility {level : Visibility} {args : List String} (bare : AreBareArgs args)
    (plain : ∀ a ∈ args.head?, beginsDeclaration (leadingWord a) = false) :
    ReadsLeaf (Call.render o { callee := .visibility level, args }).toList
      (.call { callee := .visibility level, args }) := by
  have name : IsName level.keyword ∧ level.keyword ≠ "end" := by cases level <;> decide
  have means : Keyword.ofWord? level.keyword = some (.visibility level) := by cases level <;> rfl
  have stop := stops_callTail (p := isWordChar) o { callee := .visibility level, args } rfl rfl
  have tail : callTail o { callee := .visibility level, args } = (Call.argsText false args).toList :=
    List.append_nil _
  rw [toList_call]
  refine ⟨begins_word name.1 name.2 stop, fun x => ?_⟩
  show Reads statement (level.keyword.toList ++ _ ++ '\n' :: x) _ _
  rw [List.append_assoc]
  refine reads_statement_keyword name.1 means (stop.line rfl) ?_
  rw [tail]
  refine reads_skipSpaces.followedBy ?_
  refine (reads_word?_no fun _ => ?_).followedBy ?_
  · cases args with
    | nil => rfl
    | cons a rest =>
      obtain ⟨more, begins, next⟩ := join_cons a rest
      have ends : Stops isWordChar (more ++ '\n' :: x) := by
        rcases next with rfl | ⟨more', rfl⟩
        · exact .cons rfl
        · exact .cons rfl
      rw [dropWhile_argsText (bare.1 a List.mem_cons_self), begins, List.append_assoc,
        ends.takeWhile_after]
      exact declared?_eq_none (plain a rfl)
  · refine Reads.followedBy (reads_callArgs_bare bare (endsArgs_line (x := x)) ?_) ?_
    · exact (Stops.dropWhile isLineSpace _).dropWhile_eq
    · exact reads_pure ⟨_, rfl, rfl⟩

/-- A statement that begins with a word without a meaning of its own. -/
theorem goesOn_statement_word {w : List Char} (h : IsCallWord w) (stop : Stops isWordChar x) :
    GoesOn statement (w ++ x) plainStatement (w ++ x) := by
  refine goesOn_statement_plain ?_
  rw [stop.takeWhile_append h.1]
  exact h.2.2.2.1

/-- A word that is not that of a struct field either. -/
theorem goesOn_statement_call {w : List Char} (h : IsCallWord w) (stop : Stops isWordChar x)
    (field : StructField.ofWord? w x = none) :
    GoesOn statement (w ++ x) (otherCall (String.ofList w)) x := by
  refine (goesOn_statement_word h stop).trans ?_
  obtain ⟨all, ident, lower, -, -⟩ := h
  have name : IsName (String.ofList w) := by
    rw [IsName, String.toList_ofList]
    exact ⟨all, ident⟩
  have other : Reads (word? StructField.ofWord?) (w ++ x) (w ++ x) (· = none) := by
    refine reads_word?_no fun _ => ?_
    rw [stop.takeWhile_append all, stop.dropWhile_append all]
    exact field
  have small : Reads atConstant (w ++ x) (w ++ x) (· = false) := by
    refine (reads_look _).mono fun _ same => same.trans ?_
    cases w with
    | nil => cases ident
    | cons c cs =>
      have word := ne_of_isWordChar (d := ':') (all c List.mem_cons_self) rfl
      have small : c.isUpper = false := by simpa [startsUpper] using lower
      simp [startsUpper, small, word.symm, List.isPrefixOf]
  have identifier := reads_identifier? name stop
  rw [String.toList_ofList] at identifier
  exact other.goesOn.trans (small.goesOn.trans identifier.goesOn)

theorem reads_statement_call {w : List Char} (h : IsCallWord w) (stop : Stops isWordChar x)
    (field : StructField.ofWord? w x = none) (read : Reads (otherCall (String.ofList w)) x y P) :
    Reads statement (w ++ x) y P :=
  (goesOn_statement_call h stop field).reads read

theorem begins_call {w : List Char} (h : IsCallWord w) {rest : List Char}
    (stop : Stops isWordChar rest) : Begins (w ++ rest) := by
  obtain ⟨all, ident, -, -, other⟩ := h
  have name : IsName (String.ofList w) := by
    rw [IsName, String.toList_ofList]
    exact ⟨all, ident⟩
  have begins := begins_word name (fun same => other (by rw [← same, String.toList_ofList])) stop
  rwa [String.toList_ofList] at begins

/-- Is the character a space or a tab? -/
def isGap (c : Char) : Bool :=
  c = ' ' || c = '\t'

theorem structField_ofWord?_eq_none {rest : List Char} (h : Stops (· = ':') (rest.dropWhile isGap))
    (w : List Char) : StructField.ofWord? w rest = none := by
  refine if_neg fun colon => ?_
  have first := h ':' colon
  cases first

theorem readsLeaf_call_helper {name : String} (h : IsCallWord name.toList) :
    ReadsLeaf (Call.render o { callee := .helper name }).toList (.call { callee := .helper name }) := by
  have text : (Call.render o { callee := .helper name }).toList = name.toList ++ ['!'] := by
    rw [toList_call]
    simp [Call.assignment, Callee.word, callTail, Call.argsText, Call.blockText]
  rw [text]
  refine ⟨begins_call h (.cons rfl), fun x => ?_⟩
  rw [List.append_assoc]
  refine reads_statement_call h (.cons rfl) (structField_ofWord?_eq_none (.cons rfl) _) ?_
  rw [String.ofList_toList]
  refine (reads_eat '!').followedBy ?_
  refine (reads_skipSpaces_stay (.cons rfl)).followedBy ?_
  exact (reads_look _).followedBy (reads_pure ⟨_, rfl, rfl⟩)

theorem reads_typeMember? (name : String) (template : Bool) (stop : Stops isWordChar x) :
    ∃ w, (Callee.typeMember name template).word = w ∧ IsName w ∧
      Reads typeMember? (w.toList ++ x) x (· = some template) := by
  cases template with
  | false =>
    exact ⟨"type_member", rfl, by decide, reads_word? (by decide) (by decide) stop rfl⟩
  | true =>
    exact ⟨"type_template", rfl, by decide, reads_word? (by decide) (by decide) stop rfl⟩

theorem readsLeaf_call_typeMember {name : String} {template : Bool} {args : List String}
    {block : Option String} (path : isConstantPath name = true) (clean : ∀ a ∈ args, Clean (· = ',') a)
    (cleanBlock : ∀ b ∈ block, b = "" ∨ Clean (· = '}') b) :
    ReadsLeaf (Call.render o { callee := .typeMember name template, args, block }).toList
      (.call { callee := .typeMember name template, args, block }) := by
  have isCall : CleanArgs o { callee := .typeMember name template, args, block } :=
    ⟨clean, cleanBlock⟩
  have stop := stops_callTail (p := isWordChar) o
    { callee := .typeMember name template, args, block } rfl rfl
  have text : (Call.render o { callee := .typeMember name template, args, block }).toList =
      name.toList ++ ' ' :: '=' :: ' ' :: ((Callee.typeMember name template).word.toList ++
        callTail o { callee := .typeMember name template, args, block }) := by
    rw [toList_call]
    simp [Call.assignment]
  rw [text]
  refine ⟨begins_path path _, fun x => ?_⟩
  obtain ⟨w, word, isName, member⟩ := reads_typeMember? name template (stop.line (y := x) rfl)
  simp only [word, List.append_assoc, List.cons_append]
  refine reads_statement_constant path ?_
  refine (reads_constantName path (.cons rfl)).followedBy ?_
  refine (reads_skipSpaces_one (.cons rfl)).followedBy ?_
  refine (reads_look _).followedBy ?_
  refine (reads_eat '=').followedBy ?_
  have front : Stops Text.isBlank (w.toList ++
      (callTail o { callee := .typeMember name template, args, block } ++ '\n' :: x)) :=
    isName.stops (fun c => isBlank_of_isWordChar) _
  refine (reads_skipSpaces_one front.lineSpace).followedBy ?_
  refine member.followedBy ?_
  exact (reads_callStatement isCall rfl).leaf rfl

theorem readsLeaf_call_structField {field : StructField} {args : List String} {block : Option String}
    (bare : AreBareArgs args) (colon : (args.head?.any fun a => a.toList.head? = some ':') = true)
    (cleanBlock : ∀ b ∈ block, b = "" ∨ Clean (· = '}') b) :
    ReadsLeaf (Call.render o { callee := .structField field, args, block }).toList
      (.call { callee := .structField field, args, block }) := by
  have name : IsName field.keyword ∧ field.keyword ≠ "end" := by cases field <;> decide
  have stop := stops_callTail (p := isWordChar) o { callee := .structField field, args, block } rfl rfl
  rw [toList_call]
  refine ⟨begins_word name.1 name.2 stop, fun x => ?_⟩
  have isCall : CleanArgs o { callee := .structField field, args, block } := ⟨bare, cleanBlock⟩
  have symbol : StructField.ofWord? field.keyword.toList
      (callTail o { callee := .structField field, args, block } ++ '\n' :: x) = some field := by
    cases args with
    | nil => cases colon
    | cons a rest =>
      obtain ⟨more, begins, -⟩ := join_cons a rest
      obtain ⟨cs, first⟩ : ∃ cs, a.toList = ':' :: cs := by
        cases text : a.toList with
        | nil => simp [text] at colon
        | cons c cs => exact ⟨cs, by simpa [text] using colon⟩
      have tail : ∃ rest', callTail o { callee := .structField field, args := a :: rest, block } =
          ' ' :: ':' :: rest' := by
        refine ⟨cs ++ (more ++ (Call.blockText block).toList), ?_⟩
        simp [callTail, Call.parenthesized, Call.argsText, begins, first]
      obtain ⟨rest', tail⟩ := tail
      rw [tail, StructField.ofWord?, if_pos (by simp)]
      cases field <;> rfl
  show Reads statement (field.keyword.toList ++ _ ++ '\n' :: x) _ _
  rw [List.append_assoc]
  refine reads_statement_plain ?_ ?_
  · rw [(stop.line rfl).takeWhile_append name.1.1, String.ofList_toList]
    cases field <;> rfl
  refine (reads_word? (by simpa using ne_nil_of_name name.1 []) name.1.1 (stop.line rfl)
    symbol).followedBy ?_
  exact (reads_callStatement isCall rfl).leaf rfl

/-- A word that is not that of a struct field, or is one without a symbol after it. -/
theorem structField_ofWord?_other {w rest : List Char} (h : (String.ofList w = "const" ∨
      String.ofList w = "prop") → Stops (· = ':') (rest.dropWhile isGap)) :
    StructField.ofWord? w rest = none := by
  by_cases field : String.ofList w = "const" ∨ String.ofList w = "prop"
  · exact structField_ofWord?_eq_none (h field) w
  · rw [StructField.ofWord?]
    split
    · split
      · exact absurd (.inl ‹_›) field
      · exact absurd (.inr ‹_›) field
      · rfl
    · rfl

/-- What comes after a called word and spaces: the line end, a block or the first argument. -/
theorem dropWhile_callTail (o : PrintOptions) (name : String) {args : List String}
    (block : Option String) (bare : AreBareArgs args) (space : Char → Bool) (one : space ' ' = true)
    (sub : ∀ c, space c = true → isLineSpace c = true) (x : List Char) :
    ∃ c rest, (callTail o { callee := .other name, args, block } ++ '\n' :: x).dropWhile space =
      c :: rest ∧ (args = [] ∧ block = none ∧ c = '\n' ∨ c = '{' ∨
        ∃ a ∈ args.head?, a.toList.head? = some c) := by
  have stays : ∀ c, isLineSpace c = false → ¬ space c = true := fun c no yes => by
    rw [sub c yes] at no
    cases no
  have tail : callTail o { callee := .other name, args, block } =
      (Call.argsText false args).toList ++ (Call.blockText block).toList := rfl
  rw [tail]
  cases args with
  | nil =>
    cases block with
    | none => exact ⟨'\n', x, List.dropWhile_cons_of_neg (stays _ rfl), .inl ⟨rfl, rfl, rfl⟩⟩
    | some b =>
      have text : (Call.argsText false []).toList ++ (Call.blockText (some b)).toList ++ '\n' :: x =
          ' ' :: '{' :: ' ' :: (b.toList ++ ' ' :: '}' :: '\n' :: x) := by
        simp [Call.argsText, Call.blockText]
      refine ⟨'{', ' ' :: (b.toList ++ ' ' :: '}' :: '\n' :: x), ?_, .inr (.inl rfl)⟩
      rw [text, List.dropWhile_cons_of_pos one, List.dropWhile_cons_of_neg (stays _ rfl)]
  | cons a rest =>
    obtain ⟨more, begins, -⟩ := join_cons a rest
    have clean := bare.1 a List.mem_cons_self
    have text : (Call.argsText false (a :: rest)).toList ++ (Call.blockText block).toList ++
        '\n' :: x = ' ' :: (a.toList ++ (more ++ ((Call.blockText block).toList ++ '\n' :: x))) := by
      simp [Call.argsText, begins]
    have front : Stops space (a.toList ++ (more ++ ((Call.blockText block).toList ++ '\n' :: x))) :=
      (clean.stops_blank _).lineSpace.mono sub
    rw [text, List.dropWhile_cons_of_pos one, front.dropWhile_eq]
    cases first : a.toList with
    | nil => exact absurd first clean.1
    | cons c cs => exact ⟨c, _, rfl, .inr (.inr ⟨a, rfl, by rw [first]; rfl⟩)⟩

theorem stops_gap (o : PrintOptions) (name : String) {args : List String} (block : Option String)
    (bare : AreBareArgs args) (first : ∀ a ∈ args.head?, Stops (· = ':') a.toList) (x : List Char) :
    Stops (· = ':')
      ((callTail o { callee := .other name, args, block } ++ '\n' :: x).dropWhile isGap) := by
  have sub : ∀ c, isGap c = true → isLineSpace c = true := fun c gap => by
    simp only [isLineSpace, Bool.or_eq_true]
    exact .inl (by simpa [isGap] using gap)
  obtain ⟨c, rest, same, place⟩ := dropWhile_callTail o name block bare isGap rfl sub x
  rw [same]
  obtain ⟨-, -, rfl⟩ | rfl | ⟨a, member, head⟩ := place
  · exact .cons rfl
  · exact .cons rfl
  · exact .cons (first a member c head)

/-- The line goes on after the word of a call with arguments or a block. -/
theorem reads_atLineEnd_no (o : PrintOptions) (name : String) {args : List String}
    {block : Option String} (bare : AreBareArgs args) (more : args ≠ [] ∨ block ≠ none) :
    Reads atLineEnd
      ((callTail o { callee := .other name, args, block } ++ '\n' :: x).dropWhile isLineSpace)
      ((callTail o { callee := .other name, args, block } ++ '\n' :: x).dropWhile isLineSpace)
      (· = false) := by
  obtain ⟨c, rest, same, place⟩ := dropWhile_callTail o name block bare isLineSpace rfl
    (fun _ => id) x
  rw [same]
  refine (reads_look _).mono fun _ eq => eq.trans ?_
  obtain ⟨none, none', -⟩ | rfl | ⟨a, member, head⟩ := place
  · exact absurd more (by simp [none, none'])
  · rfl
  · have stop := (bare.1 a (List.mem_of_mem_head? member)).stops_stop [] c (by simpa using head)
    simp only [endsArgument, Bool.or_eq_false_iff] at stop
    simp [stop]

theorem readsLeaf_call_other {name : String} {w mark : List Char} {args : List String}
    {block : Option String} (parts : name.toList = w ++ mark) (bare : AreBareArgs args)
    (word : IsCallWord w) (marked : IsMark args block name mark)
    (cleanBlock : ∀ b ∈ block, b = "" ∨ Clean (· = '}') b) :
    ReadsLeaf (Call.render o { callee := .other name, args, block }).toList
      (.call { callee := .other name, args, block }) := by
  have isCall : CleanArgs o { callee := .other name, args, block } := ⟨bare, cleanBlock⟩
  have stop := stops_callTail (p := isWordChar) o { callee := .other name, args, block } rfl rfl
  have text : (Call.render o { callee := .other name, args, block }).toList =
      w ++ (mark ++ callTail o { callee := .other name, args, block }) := by
    rw [toList_call]
    show [] ++ (name.toList ++ _) = _
    rw [parts, List.nil_append, List.append_assoc]
  have whole : String.ofList w ++ String.ofList mark = name := by
    rw [← String.ofList_append, ← parts, String.ofList_toList]
  have call : ∀ {x text : List Char}, text.dropWhile isLineSpace =
      (callTail o { callee := .other name, args, block } ++ '\n' :: x).dropWhile isLineSpace →
        Reads (callStatement (.other name)) text ('\n' :: x) fun s =>
          ∃ d, s = .leaf d [] ∧ d.unlocated = .call { callee := .other name, args, block } :=
    fun alike => (reads_callStatement isCall alike).leaf rfl
  rw [text]
  rcases marked with ⟨rfl, field⟩ | rfl | ⟨rfl, more⟩
  · refine ⟨begins_call word stop, fun x => ?_⟩
    obtain rfl : name = String.ofList w := whole.symm.trans (String.append_empty)
    rw [List.nil_append, List.append_assoc]
    refine reads_statement_call word (stop.line rfl) (structField_ofWord?_other fun isField => ?_) ?_
    · exact stops_gap o _ block bare (field isField) x
    refine (reads_eat_no (Stops.line (stops_callTail o _ rfl rfl) rfl)).followedBy ?_
    refine (reads_eat_no (Stops.line (stops_callTail o _ rfl rfl) rfl)).followedBy ?_
    exact call rfl
  · refine ⟨begins_call word (.cons rfl), fun x => ?_⟩
    rw [List.append_assoc]
    refine reads_statement_call word (.cons rfl) (structField_ofWord?_eq_none (.cons rfl) _) ?_
    refine (reads_eat_no (.cons rfl)).followedBy ?_
    refine (reads_eat '?').followedBy ?_
    show Reads (callStatement (.other (String.ofList w ++ String.ofList ['?']))) _ _ _
    rw [whole]
    exact call rfl
  · refine ⟨begins_call word (.cons rfl), fun x => ?_⟩
    rw [List.append_assoc]
    refine reads_statement_call word (.cons rfl) (structField_ofWord?_eq_none (.cons rfl) _) ?_
    refine (reads_eat '!').followedBy ?_
    refine reads_skipSpaces.followedBy ?_
    refine (reads_atLineEnd_no o name bare more).followedBy ?_
    show Reads (callStatement (.other (String.ofList w ++ String.ofList ['!']))) _ _ _
    rw [whole]
    exact call (Stops.dropWhile isLineSpace _).dropWhile_eq

/-- Every printable call is read back from its printed form. -/
theorem readsLeaf_call {c : Call} (h : c.Printable o) : ReadsLeaf (c.render o).toList (.call c) := by
  obtain ⟨callee, args, block⟩ := c
  obtain ⟨fit, fits, cleanBlock⟩ := h
  cases callee with
  | mixin how =>
    have isCall : CleanArgs o { callee := .mixin how, args, block } := ⟨fit, cleanBlock⟩
    cases how with
    | inclusion => exact readsLeaf_call_keyword isCall (by decide) rfl rfl
    | extension => exact readsLeaf_call_keyword isCall (by decide) rfl rfl
    | prepending => exact readsLeaf_call_keyword isCall (by decide) rfl rfl
  | mixesInClassMethods => exact readsLeaf_call_keyword ⟨fit, cleanBlock⟩ (by decide) rfl rfl
  | requiresAncestor => exact readsLeaf_call_keyword ⟨fit, cleanBlock⟩ (by decide) rfl rfl
  | visibility level =>
    obtain ⟨rfl, plain⟩ := fits
    exact readsLeaf_call_visibility fit plain
  | helper name =>
    obtain ⟨word, rfl, rfl⟩ := fits
    exact readsLeaf_call_helper word
  | typeMember name template => exact readsLeaf_call_typeMember fits fit cleanBlock
  | structField field => exact readsLeaf_call_structField fit fits cleanBlock
  | other name =>
    obtain ⟨word, marked⟩ := fits
    exact readsLeaf_call_other List.takeWhile_append_dropWhile.symm fit word marked cleanBlock

end Reader

end InterfaceFile
