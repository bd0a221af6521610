import InterfaceFile.Proofs.RoundTrip.ReadArguments
import InterfaceFile.Proofs.RoundTrip.ReadNames
import InterfaceFile.Proofs.RoundTrip.ReadSignature

/-!
# Declarations are read back

The first word of a printed declaration says what it is. Methods, attributes and constants are read
up to the end of their last line.
-/

namespace InterfaceFile

theorem Stops.line {p : Char → Bool} {x y : List Char} (h : Stops p x) (line : p '\n' = false) :
    Stops p (x ++ '\n' :: y) := by
  cases x with
  | nil => exact .cons line
  | cons c x => exact .cons (Stops.cons_iff.1 h)

/-- The leading run of a text ends before what stops it. -/
theorem Stops.takeWhile_after {p : Char → Bool} {y : List Char} (h : Stops p y) (x : List Char) :
    (x ++ y).takeWhile p = x.takeWhile p := by
  induction x with
  | nil => exact h.takeWhile_eq
  | cons c x ih => rw [List.cons_append, List.takeWhile_cons, List.takeWhile_cons, ih]

namespace Reader

variable {x y : List Char} {o : PrintOptions} {P : Statement → Prop}

/-! ## The first word -/

/-- A text that can begin a line: not with white space, a comment or `end`. -/
def Begins (text : List Char) : Prop :=
  text ≠ [] ∧ Stops (fun c => Text.isBlank c || c = '#') text ∧
    ∀ x, (text ++ '\n' :: x).takeWhile isWordChar ≠ "end".toList

theorem begins_word {w : String} (name : IsName w) (other : w ≠ "end") {rest : List Char}
    (stop : Stops isWordChar rest) : Begins (w.toList ++ rest) := by
  refine ⟨ne_nil_of_name name rest, ?_, fun x => ?_⟩
  · refine name.stops (fun c word => ?_) rest
    simp [isBlank_of_isWordChar word, ne_of_isWordChar (d := '#') word rfl]
  · rw [List.append_assoc, (stop.line rfl).takeWhile_append name.1]
    exact fun same => other (String.toList_inj.1 same)

theorem goesOn_statement_keyword {w : String} {keyword : Keyword} (name : IsName w)
    (means : Keyword.ofWord? w = some keyword) (stop : Stops isWordChar x) :
    GoesOn statement (w.toList ++ x) (keywordStatement keyword) x := by
  have nonempty : w.toList ≠ [] := by
    simpa using ne_nil_of_name name []
  refine (reads_word? (a := keyword) nonempty name.1 stop ?_).goesOn
  rw [String.ofList_toList]
  exact means

theorem reads_statement_keyword {w : String} {keyword : Keyword} (name : IsName w)
    (means : Keyword.ofWord? w = some keyword) (stop : Stops isWordChar x)
    (read : Reads (keywordStatement keyword) x y P) : Reads statement (w.toList ++ x) y P :=
  (goesOn_statement_keyword name means stop).reads read

theorem goesOn_statement_plain
    (none : Keyword.ofWord? (String.ofList (x.takeWhile isWordChar)) = none) :
    GoesOn statement x plainStatement x :=
  (reads_word?_no fun _ => none).goesOn

theorem reads_statement_plain
    (none : Keyword.ofWord? (String.ofList (x.takeWhile isWordChar)) = none)
    (read : Reads plainStatement x y P) : Reads statement x y P :=
  (goesOn_statement_plain none).reads read

/-! ## Visibility -/

/-- The visibility before a declaration. -/
def visibilityText : Visibility → List Char
  | .pub => []
  | level => level.keyword.toList ++ [' ']

theorem lay_visibilityDoc (plain : o.colorize = false) (v : Visibility) (n : Nat) (as : List Atom) :
    lay none ((o.visibilityDoc v).atoms n ++ as) = visibilityText v ++ lay none as := by
  cases v <;> simp [PrintOptions.visibilityDoc, visibilityText, Doc.atoms, Doc.atomsAll,
    keyword_plain plain]

/-- A word that may follow a visibility, with the reader for what comes after it. -/
def Declares (w : String) (body : Visibility → Reader Statement) : Prop :=
  (w = "def" ∧ body = method) ∨ ∃ access : Access, w = access.keyword ∧
    body = fun v => attributes v access

theorem Declares.isName {w : String} {body : Visibility → Reader Statement} (h : Declares w body) :
    IsName w ∧ w ≠ "end" := by
  obtain ⟨rfl, -⟩ | ⟨access, rfl, -⟩ := h
  · decide
  · cases access <;> decide

/-- A method or an attribute with its visibility. -/
theorem goesOn_statement_visible {w : String} {body : Visibility → Reader Statement}
    (h : Declares w body) (v : Visibility) (stop : Stops isWordChar x) :
    GoesOn statement (visibilityText v ++ (w.toList ++ x)) (body v) x := by
  have name := h.isName.1
  have nonempty : w.toList ≠ [] := by
    simpa using ne_nil_of_name name []
  -- After a visibility the word is looked up once more.
  have after : ∀ level, GoesOn (afterVisibility level) (' ' :: (w.toList ++ x)) (body level) x := by
    intro level
    have space : Stops isLineSpace (w.toList ++ x) := by
      have front : Stops Text.isBlank (w.toList ++ x) := name.stops (fun c => isBlank_of_isWordChar) x
      exact front.lineSpace
    refine (reads_skipSpaces_one space).goesOn.trans ?_
    obtain ⟨rfl, rfl⟩ | ⟨access, rfl, rfl⟩ := h
    · exact (reads_word? (a := none) nonempty name.1 stop rfl).goesOn
    · refine (reads_word? (a := some access) nonempty name.1 stop ?_).goesOn
      cases access <;> rfl
  cases v with
  | pub =>
    obtain ⟨rfl, rfl⟩ | ⟨access, rfl, rfl⟩ := h
    · exact goesOn_statement_keyword name rfl stop
    · have means : Keyword.ofWord? access.keyword = some (.attrWord access) := by
        cases access <;> rfl
      exact goesOn_statement_keyword name means stop
  | prot =>
    have word : IsName "protected" := by decide
    exact (goesOn_statement_keyword word rfl (.cons rfl)).trans (after .prot)
  | priv =>
    have word : IsName "private" := by decide
    exact (goesOn_statement_keyword word rfl (.cons rfl)).trans (after .priv)

theorem begins_visible {w : String} {body : Visibility → Reader Statement} (h : Declares w body)
    (v : Visibility) {rest : List Char} (stop : Stops isWordChar rest) :
    Begins (visibilityText v ++ (w.toList ++ rest)) := by
  cases v with
  | pub => exact begins_word h.isName.1 h.isName.2 stop
  | prot => exact begins_word (w := "protected") (by decide) (by decide) (.cons rfl)
  | priv => exact begins_word (w := "private") (by decide) (by decide) (.cons rfl)

/-! ## Methods -/

/-- How an empty body ends, after its header. -/
def endText (o : PrintOptions) (n : Nat) : List Char :=
  if o.foldEmptyScopes then '\n' :: (List.replicate n ' ' ++ ['e', 'n', 'd'])
  else [';', ' ', 'e', 'n', 'd']

theorem lay_emptyEnd (plain : o.colorize = false) (n : Nat) (as : List Atom) :
    lay none (Doc.atomsAll n o.emptyEnd ++ as) = endText o n ++ lay none as := by
  by_cases fold : o.foldEmptyScopes = true
  · simp [PrintOptions.emptyEnd, endText, fold, Doc.atoms, Doc.atomsAll, keyword_plain plain,
      lay_some_text]
  · simp [PrintOptions.emptyEnd, endText, fold, Doc.atoms, Doc.atomsAll, keyword_plain plain]

/-- What may follow a header. -/
def EndsHeader (x : List Char) : Prop :=
  ∃ c rest, x = c :: rest ∧ (c = ';' ∨ c = '\n')

theorem EndsHeader.stops {p : Char → Bool} (h : EndsHeader x) (semicolon : p ';' = false)
    (line : p '\n' = false) : Stops p x := by
  obtain ⟨c, rest, rfl, rfl | rfl⟩ := h
  · exact .cons semicolon
  · exact .cons line

theorem endsHeader_endText (o : PrintOptions) (n : Nat) (x : List Char) :
    EndsHeader (endText o n ++ x) := by
  rw [endText]
  split
  · exact ⟨_, _, rfl, .inr rfl⟩
  · exact ⟨_, _, rfl, .inl rfl⟩

theorem reads_methodEnd (o : PrintOptions) (n : Nat) (start : Position) :
    Reads (methodEnd start) (endText o n ++ '\n' :: x) ('\n' :: x) (· = none) := by
  by_cases fold : o.foldEmptyScopes = true
  · have text : endText o n ++ '\n' :: x =
        '\n' :: (List.replicate n ' ' ++ 'e' :: 'n' :: 'd' :: '\n' :: x) := by
      simp [endText, fold]
    rw [text]
    refine (reads_skipSpaces_stay (.cons rfl)).followedBy ?_
    refine (reads_eat_no (.cons rfl)).followedBy ?_
    refine reads_here.bind fun stop _ => ?_
    refine reads_finishLine.followedBy ?_
    refine (reads_indentation (.cons (by decide))).followedBy ?_
    have ends : Reads (eatKeyword "end") ('e' :: 'n' :: 'd' :: '\n' :: x) ('\n' :: x) (· = true) :=
      reads_eatKeyword (by decide) (by decide) (.cons rfl)
    exact ends.followedBy (reads_pure rfl)
  · rw [endText, if_neg fold]
    refine (reads_skipSpaces_stay (.cons rfl)).followedBy ?_
    refine (reads_eat ';').followedBy ?_
    refine (reads_skipSpaces_one (.cons rfl)).followedBy ?_
    exact (reads_end (.cons rfl)).followedBy (reads_pure rfl)

/-- The printed parameters of a method. -/
def paramsText (o : PrintOptions) (n : Nat) (params : List Param) : List Char :=
  lay none (Doc.atomsAll n (o.paramsDocs params))

theorem lay_paramsDocs (o : PrintOptions) (n : Nat) (params : List Param) (as : List Atom) :
    lay none (Doc.atomsAll n (o.paramsDocs params) ++ as) = paramsText o n params ++ lay none as := by
  rw [paramsText, PrintOptions.paramsDocs]
  split
  · rfl
  · split
    · simp [Doc.atomsAll, Doc.atoms]
    · simp [Doc.atomsAll, Doc.atoms, lay_append_line, lay_some_text]

/-- Parameters are in parentheses or not there at all. -/
theorem paramsText_head (o : PrintOptions) (n : Nat) (params : List Param) :
    paramsText o n params = [] ∨ ∃ rest, paramsText o n params = '(' :: rest := by
  rw [paramsText, PrintOptions.paramsDocs]
  split
  · exact .inl rfl
  · split
    · exact .inr ⟨(Text.join ", " (params.map Param.render)).toList ++ [')'],
        by simp [Doc.atomsAll, Doc.atoms]⟩
    · exact .inr ⟨_, by simp only [Doc.atomsAll, Doc.atoms, lay_none_text, List.cons_append]; rfl⟩

theorem reads_methodParamList (plain : o.colorize = false) {ps : List Param}
    (h : ∀ p ∈ ps, p.pruned.Printable) (n : Nat) (ends : EndsHeader x) :
    Reads methodParamList (paramsText o n ps ++ x) x
      fun r => r.map Param.unlocated = ps.map fun p => p.pruned.written := by
  refine reads_here.bind fun paren _ => ?_
  rw [paramsText, PrintOptions.paramsDocs]
  by_cases none : ps = []
  · subst none
    exact (reads_eat_no (ends.stops rfl rfl)).followedBy (reads_pure rfl)
  rw [if_neg (by simpa using none)]
  by_cases silent : (ps.all fun p => p.comments.isEmpty) = true
  · have quiet : ∀ p ∈ ps, p.comments = [] := by simpa using silent
    have listed := listed_join Param.render Param.comments Param.bare (x := x) ps [] none (by simp)
      quiet
    rw [if_pos silent]
    have text : lay Option.none (Doc.atomsAll n
        [.text ("(" ++ Text.join ", " (ps.map Param.render) ++ ")")]) ++ x =
          '(' :: ((Text.join ", " (ps.map Param.render)).toList ++ ')' :: x) := by
      simp [Doc.atomsAll, Doc.atoms]
    rw [text]
    refine (reads_eat '(').followedBy ?_
    exact reads_methodParams h listed (Stops.dropWhile_eq (.cons (by decide))) paren.offset
  · rw [if_neg silent]
    have good : ∀ p ∈ ps, p.render ≠ "" ∧ ∀ line ∈ commentLines p.comments, IsCommentLine line := by
      intro p member
      have text : p.render.toList ≠ [] := (readsItem_param (h p member)).1
      have printable : ∀ c ∈ p.comments, c.Printable := (h p member).2
      exact ⟨fun empty => text (by rw [empty]; rfl), isCommentLine_of_printable printable⟩
    have listed := listed_entries Param.render Param.comments Param.bare plain (n + o.indentWidth) n
      [.text (String.ofList (')' :: x))] ps Option.none good
    have last : lay (some n) [.text (String.ofList (')' :: x))] =
        List.replicate n ' ' ++ ')' :: x := by
      rw [lay_some_text (by simp [String.ext_iff])]
      simp
    rw [lay_append_line, last] at listed
    simp only [Doc.atomsAll, Doc.atoms, lay_none_text, List.append_nil, List.cons_append,
      List.nil_append, lay_append_line, lay_some_text (s := ")") (by decide), List.append_assoc]
    refine (reads_eat '(').followedBy ?_
    exact reads_methodParams h listed (dropWhile_indentation n (.cons (by decide))) paren.offset

/-- A method after the word `def` and a space. -/
def methodText (o : PrintOptions) (n : Nat) (m : Method) : List Char :=
  (if m.singleton then selfDot else []) ++
    (m.name.toList ++ (paramsText o n m.params ++ endText o n))

theorem lay_methodDoc (plain : o.colorize = false) (m : Method) (n : Nat) :
    lay none ((o.methodDoc m).atoms n) =
      visibilityText m.visibility ++ ("def".toList ++ ' ' :: methodText o n m) := by
  have ends := lay_emptyEnd (o := o) plain n []
  rw [List.append_nil, lay_nil, List.append_nil] at ends
  by_cases singleton : m.singleton = true
  · simp [PrintOptions.methodDoc, methodText, singleton, Doc.atoms, Doc.atomsAll, lay_visibilityDoc,
      lay_paramsDocs, keyword_plain, paint_plain, plain, ends, selfDot]
  · simp [PrintOptions.methodDoc, methodText, singleton, Doc.atoms, Doc.atomsAll, lay_visibilityDoc,
      lay_paramsDocs, keyword_plain, paint_plain, plain, ends]

section Names

variable {name : List Char} {singleton : Bool}

theorem stops_methodName (named : name ≠ []) (inName : ∀ c ∈ name, endsMethodName c = false)
    (rest : List Char) :
    Stops isLineSpace ((if singleton then selfDot else []) ++ (name ++ rest)) := by
  cases singleton with
  | true => exact .cons rfl
  | false =>
    cases name with
    | nil => exact absurd rfl named
    | cons c cs =>
      have first := inName c List.mem_cons_self
      simp only [endsMethodName, Bool.or_eq_false_iff] at first
      have blank : Stops Text.isBlank (c :: cs ++ rest) := .cons first.1.1.1
      exact blank.lineSpace

theorem reads_selfDot (inName : ∀ c ∈ name, endsMethodName c = false)
    (self : selfDot <+: name → singleton = true) (stop : Stops (fun c => !endsMethodName c) y) :
    Reads (eatText selfDot) ((if singleton then selfDot else []) ++ (name ++ y)) (name ++ y)
      (· = singleton) := by
  cases singleton with
  | true => exact reads_eatText selfDot
  | false =>
    refine reads_eatText_no ?_
    rintro ⟨t, same⟩
    -- The prefix has none of the characters that end a name, so it lies inside the name.
    have inside : selfDot ++ t.takeWhile (fun c => !endsMethodName c) = name := by
      rw [← List.takeWhile_append_of_pos (List.all_eq_true.1 rfl), same]
      exact stop.takeWhile_append fun c member => by rw [inName c member]; rfl
    exact absurd (self ⟨_, inside⟩) (by decide)

end Names

theorem unlocated_ofTypes {name : String} {singleton : Bool} {v : Visibility} {ps qs : List Param}
    (same : ps.map Param.unlocated = qs.map Param.written) :
    Method.unlocated { Method.ofTypes name singleton ps none with visibility := v } =
      { name, singleton, visibility := v, params := qs.map Param.written } := by
  have untyped : (ps.any fun p => p.type.isSome) = false := by
    rw [List.any_eq_false]
    intro p member
    have inside : p.unlocated ∈ qs.map Param.written := same ▸ List.mem_map_of_mem member
    obtain ⟨q, -, eq⟩ := List.mem_map.1 inside
    have type : p.type = none := (congrArg Param.type eq).symm
    simp [type]
  simp [Method.ofTypes, Method.unlocated, untyped, same]

theorem reads_method (plain : o.colorize = false) {m : Method} (h : m.pruned.Printable) (n : Nat)
    (v : Visibility) : Reads (method v) (' ' :: (methodText o n m ++ '\n' :: x)) ('\n' :: x)
      fun s => ∃ d, s = .leaf d [] ∧
        d.unlocated = .method { m.pruned.written with visibility := v, sigs := [] } := by
  obtain ⟨⟨named, inName, self⟩, fits, -⟩ := h
  change m.name.toList ≠ [] at named
  have params : ∀ p ∈ m.params, p.pruned.Printable := fun p member =>
    fits p.pruned (List.mem_map_of_mem member)
  have ends := endsHeader_endText o n ('\n' :: x)
  have text : methodText o n m ++ '\n' :: x = (if m.singleton then selfDot else []) ++
      (m.name.toList ++ (paramsText o n m.params ++ (endText o n ++ '\n' :: x))) := by
    simp [methodText]
  have goes : ∀ c ∈ m.name.toList, (!endsMethodName c) = true := fun c member => by
    rw [inName c member]
    rfl
  have stop : Stops (fun c => !endsMethodName c)
      (paramsText o n m.params ++ (endText o n ++ '\n' :: x)) := by
    rcases paramsText_head o n m.params with none | ⟨more, some⟩
    · rw [none]
      exact ends.stops rfl rfl
    · rw [some]
      exact .cons rfl
  have name := reads_readWhile (fun c => !endsMethodName c)
    (x := m.name.toList ++ (paramsText o n m.params ++ (endText o n ++ '\n' :: x)))
  rw [stop.takeWhile_append goes, stop.dropWhile_append goes] at name
  rw [text]
  refine (reads_skipSpaces_one (stops_methodName named inName _)).followedBy ?_
  refine (reads_selfDot inName self stop).followedBy ?_
  refine reads_here.bind fun start _ => ?_
  refine name.followedBy ?_
  rw [if_neg (by simpa using named), String.ofList_toList]
  refine (reads_methodParamList plain params n ends).bind fun ps read => ?_
  have same : ps.map Param.unlocated = m.pruned.params.map Param.written := by
    rw [read, Method.pruned, List.map_map]
    rfl
  refine (reads_methodEnd o n start).followedBy ?_
  exact reads_pure ⟨_, rfl, congrArg Declaration.method (unlocated_ofTypes same)⟩

/-- The text is that of a declaration without a body. -/
def ReadsLeaf (text : List Char) (decl : Declaration) : Prop :=
  Begins text ∧ ∀ x, Reads statement (text ++ '\n' :: x) ('\n' :: x)
    fun s => ∃ d, s = .leaf d [] ∧ d.unlocated = decl

theorem readsLeaf_method_pruned (plain : o.colorize = false) {m : Method} (h : m.pruned.Printable)
    (n : Nat) : ReadsLeaf (lay none ((o.methodDoc m).atoms n))
      (.method { m.pruned.written with sigs := [] }) := by
  have declares : Declares "def" method := .inl ⟨rfl, rfl⟩
  rw [lay_methodDoc plain]
  refine ⟨begins_visible declares m.visibility (.cons rfl), fun x => ?_⟩
  simp only [List.append_assoc, List.cons_append]
  exact (goesOn_statement_visible declares m.visibility (.cons rfl)).reads
    (reads_method plain h n m.visibility)

theorem readsLeaf_method (plain : o.colorize = false) {m : Method} (h : m.Printable) (n : Nat) :
    ReadsLeaf (lay none ((o.methodDoc m).atoms n)) (.method { m.written with sigs := [] }) := by
  have same : m.pruned = m := Method.pruned_eq fun p member => (h.2.1 p member).filled
  have read := readsLeaf_method_pruned plain (m := m) (by rwa [same]) n
  rwa [same] at read

/-! ## Attributes -/

theorem lay_join (n : Nat) : ∀ names : List String,
    lay none ((Doc.join (.text ", ") (names.map fun name => .text (":" ++ name))).atoms n) =
      (Text.join ", " (symbolTexts names)).toList
  | [] => rfl
  | [name] => by simp [Doc.join, Doc.atoms, Doc.atomsAll, symbolTexts, Text.join_singleton]
  | name :: next :: names => by
    have rest := lay_join n (next :: names)
    simp only [Doc.join, Doc.atoms, Doc.atomsAll, symbolTexts, List.map_cons,
      List.intersperse_cons_cons, lay_none_text, List.cons_append, List.nil_append] at rest ⊢
    rw [rest, Text.join_cons_cons]
    simp

theorem areBareArgs_symbols {names : List String} (h : ∀ name ∈ names, IsSymbol endsArgument name) :
    AreBareArgs (symbolTexts names) := by
  refine ⟨clean_symbolTexts h, fun a first => ?_⟩
  obtain ⟨name, inside, rfl⟩ := List.mem_map.1 (List.mem_of_mem_head? first)
  rw [String.toList_append]
  exact .cons rfl

theorem reads_attributes {names : List String} (nonempty : names ≠ [])
    (h : ∀ name ∈ names, IsSymbol endsArgument name) (v : Visibility) (access : Access) :
    Reads (attributes v access) (' ' :: ((Text.join ", " (symbolTexts names)).toList ++ '\n' :: x))
      ('\n' :: x) (· = .leaf (.attr { access, names, visibility := v }) []) := by
  have some : symbolTexts names ≠ [] := by simpa [symbolTexts] using nonempty
  refine Reads.followedBy (reads_callArgs_bare (areBareArgs_symbols h)
    (endsArgs_line (x := x)) ?_) ?_
  · simp [Call.argsText, some]
  rw [if_neg (by simpa using some), map_symbolName h]
  exact reads_pure rfl

theorem readsLeaf_attribute (plain : o.colorize = false) {a : Attribute} (h : a.Printable) (n : Nat) :
    ReadsLeaf (lay none ((o.attributeDoc a).atoms n)) (.attr { a.written with sigs := [] }) := by
  obtain ⟨nonempty, names, -⟩ := h
  have declares : Declares a.access.keyword fun v => attributes v a.access := .inr ⟨_, rfl, rfl⟩
  have text : lay none ((o.attributeDoc a).atoms n) = visibilityText a.visibility ++
      (a.access.keyword.toList ++ ' ' :: (Text.join ", " (symbolTexts a.names)).toList) := by
    have joined := lay_join n a.names
    simp [PrintOptions.attributeDoc, Doc.atoms, Doc.atomsAll, lay_visibilityDoc, keyword_plain,
      plain, joined]
  rw [text]
  refine ⟨begins_visible declares a.visibility (.cons rfl), fun x => ?_⟩
  simp only [List.append_assoc, List.cons_append]
  refine (goesOn_statement_visible declares a.visibility (.cons rfl)).reads
    ((reads_attributes nonempty names a.visibility a.access).mono ?_)
  rintro _ rfl
  exact ⟨_, rfl, rfl⟩

/-! ## Constants -/

theorem constantPath_head {s : String} (h : isConstantPath s = true) : ∃ c cs, s.toList = c :: cs ∧
    (c.isUpper = true ∨ c = ':' ∧ ∃ more, cs = ':' :: more) := by
  rw [isConstantPath] at h
  split at h
  · next cs text => exact ⟨_, _, text, .inr ⟨rfl, cs, rfl⟩⟩
  · cases text : s.toList with
    | nil => rw [text] at h; cases h
    | cons c cs =>
      rw [text, isPathFrom] at h
      exact ⟨c, cs, rfl, .inl (Bool.and_eq_true_iff.1 h).1⟩

/-- A capital letter does not begin a keyword. -/
theorem ofWord?_of_upper {c : Char} (upper : c.isUpper = true) (cs : List Char) :
    Keyword.ofWord? (String.ofList (c :: cs)) = none := by
  have head : ∀ (d : Char) (ds : List Char), d.isUpper = false →
      String.ofList (c :: cs) ≠ String.ofList (d :: ds) := by
    intro d ds lower same
    obtain rfl := (List.cons_eq_cons.1 (String.ofList_injective same)).1
    rw [upper] at lower
    cases lower
  generalize String.ofList (c :: cs) = w at head ⊢
  unfold Keyword.ofWord?
  split
  all_goals first
    | rfl
    | exact absurd rfl (head _ _ rfl)

theorem structField_ofWord?_of_upper {c : Char} (upper : c.isUpper = true) (cs rest : List Char) :
    StructField.ofWord? (c :: cs) rest = none := by
  rw [StructField.ofWord?]
  split
  · split
    · next same =>
      have text := congrArg String.toList same
      simp only [String.toList_ofList] at text
      obtain rfl := (List.cons_eq_cons.1 text).1
      cases upper
    · next same =>
      have text := congrArg String.toList same
      simp only [String.toList_ofList] at text
      obtain rfl := (List.cons_eq_cons.1 text).1
      cases upper
    · rfl
  · rfl

theorem begins_path {s : String} (path : isConstantPath s = true) (rest : List Char) :
    Begins (s.toList ++ rest) := by
  obtain ⟨c, cs, text, upper | ⟨rfl, -⟩⟩ := constantPath_head path
  · have word := isWordChar_of_upper upper
    rw [text]
    refine ⟨by simp, ?_, fun x => ?_⟩
    · refine .cons ?_
      simp [isBlank_of_isWordChar word, ne_of_isWordChar (d := '#') word rfl]
    · rw [List.cons_append, List.cons_append, List.takeWhile_cons_of_pos word]
      intro same
      obtain rfl := (List.cons_eq_cons.1 same).1
      cases upper
  · rw [text]
    refine ⟨by simp, .cons (by decide), fun x => ?_⟩
    rw [List.cons_append, List.cons_append, List.takeWhile_cons_of_neg (by decide)]
    decide

/-- A statement that begins with a constant path. -/
theorem goesOn_statement_constant {s : String} (path : isConstantPath s = true) :
    GoesOn statement (s.toList ++ x) constant (s.toList ++ x) := by
  obtain ⟨c, cs, text, upper | ⟨rfl, more, rfl⟩⟩ := constantPath_head path
  · have word := isWordChar_of_upper upper
    have first : (c :: (cs ++ x)).takeWhile isWordChar = c :: (cs ++ x).takeWhile isWordChar :=
      List.takeWhile_cons_of_pos word
    rw [text, List.cons_append]
    refine (goesOn_statement_plain ?_).trans ?_
    · rw [first]
      exact ofWord?_of_upper upper _
    have field : Reads (word? StructField.ofWord?) (c :: (cs ++ x)) (c :: (cs ++ x)) (· = none) := by
      refine reads_word?_no fun _ => ?_
      rw [first]
      exact structField_ofWord?_of_upper upper _ _
    have capital : Reads atConstant (c :: (cs ++ x)) (c :: (cs ++ x)) (· = true) :=
      (reads_look _).mono fun _ same => by simp [same, startsUpper, upper]
    exact field.goesOn.trans capital.goesOn
  · have none : (':' :: ':' :: (more ++ x)).takeWhile isWordChar = [] :=
      List.takeWhile_cons_of_neg (by decide)
    rw [text, List.cons_append, List.cons_append]
    refine (goesOn_statement_plain ?_).trans ?_
    · rw [none]
      rfl
    have field : Reads (word? StructField.ofWord?) (':' :: ':' :: (more ++ x))
        (':' :: ':' :: (more ++ x)) (· = .none) := reads_word?_no fun some => absurd none some
    have path : Reads atConstant (':' :: ':' :: (more ++ x)) (':' :: ':' :: (more ++ x)) (· = true) :=
      (reads_look _).mono fun _ same => by simp [same]
    exact field.goesOn.trans path.goesOn

theorem reads_statement_constant {s : String} (path : isConstantPath s = true)
    (read : Reads constant (s.toList ++ x) y P) : Reads statement (s.toList ++ x) y P :=
  (goesOn_statement_constant path).reads read

/-- A value does not begin like a type member. -/
theorem reads_typeMember?_no {value : String} (h : IsValue value) :
    Reads typeMember? (value.toList ++ '\n' :: x) (value.toList ++ '\n' :: x) (· = none) := by
  obtain ⟨-, member, template⟩ := h
  refine reads_word?_no fun _ => ?_
  rw [Stops.takeWhile_after (.cons rfl)]
  rw [leadingWord] at member template
  split
  · exact absurd ‹_› member
  · exact absurd ‹_› template
  · rfl

theorem readsLeaf_constant {c : Constant} (h : c.Printable) (n : Nat) :
    ReadsLeaf (lay none ((PrintOptions.constantDoc c).atoms n)) (.const c) := by
  obtain ⟨name, value⟩ := c
  obtain ⟨path, fits⟩ := h
  cases value with
  | none =>
    have text : lay none ((PrintOptions.constantDoc { name }).atoms n) = name.toList := by
      simp [PrintOptions.constantDoc, Doc.atoms]
    rw [text]
    refine ⟨by simpa using begins_path path [], fun x => reads_statement_constant path ?_⟩
    refine (reads_constantName path (.cons rfl)).followedBy ?_
    refine (reads_skipSpaces_stay (.cons rfl)).followedBy ?_
    refine (reads_look _).followedBy ?_
    exact (reads_eat_no (.cons rfl)).followedBy (reads_pure ⟨_, rfl, rfl⟩)
  | some value =>
    have isValue := fits value rfl
    have clean := isValue.1
    have text : lay none ((PrintOptions.constantDoc { name, value }).atoms n) =
        name.toList ++ ' ' :: '=' :: ' ' :: value.toList := by
      simp [PrintOptions.constantDoc, Doc.atoms, Doc.atomsAll]
    rw [text]
    refine ⟨begins_path path _, fun x => ?_⟩
    rw [List.append_assoc]
    refine reads_statement_constant path ?_
    refine (reads_constantName path (.cons rfl)).followedBy ?_
    refine (reads_skipSpaces_one (.cons rfl)).followedBy ?_
    refine (reads_look _).followedBy ?_
    refine (reads_eat '=').followedBy ?_
    refine (reads_skipSpaces_one (clean.stops_blank _).lineSpace).followedBy ?_
    refine (reads_typeMember?_no isValue).followedBy ?_
    exact (reads_someText clean (.cons rfl)).followedBy (reads_pure ⟨_, rfl, rfl⟩)

end Reader

end InterfaceFile
