import InterfaceFile.Proofs.Reader.Signed
import InterfaceFile.Proofs.RoundTrip.ReadCall

/-!
# Files are read back

The reader goes through a file line by line. One lemma for each kind of line says what becomes of the
open file; they are put together along the statements that were printed. Since a line is read after
the spaces at its start, its indentation does not matter.
-/

namespace InterfaceFile

namespace Reader

variable {x y z : List Char} {o : PrintOptions} {f : OpenFile}

/-! ## Headers of scopes -/

/-- The header of a scope as it is printed. -/
def headerText (s : Scope) : List Char :=
  match s.kind with
  | .root => []
  | .moduleDef => "module".toList ++ ' ' :: s.name.toList
  | .classDef none => "class".toList ++ ' ' :: s.name.toList
  | .classDef (some superclass) =>
    "class".toList ++ ' ' :: (s.name.toList ++ ' ' :: '<' :: ' ' :: superclass.toList)
  | .singletonClass => "class".toList ++ ' ' :: '<' :: '<' :: ' ' :: "self".toList

theorem lay_headerDocs (plain : o.colorize = false) (s : Scope) (n : Nat) (as : List Atom) :
    lay none (Doc.atomsAll n (o.headerDocs s) ++ as) = headerText s ++ lay none as := by
  obtain ⟨kind, name⟩ := s
  rcases kind with _ | _ | (_ | superclass) | _ <;>
    simp [PrintOptions.headerDocs, headerText, Doc.atoms, Doc.atomsAll, keyword_plain plain,
      paint_plain plain]

theorem begins_header {s : Scope} (h : s.Printable) (rest : List Char) :
    Begins (headerText s ++ rest) := by
  obtain ⟨kind, name⟩ := s
  rcases kind with _ | _ | (_ | superclass) | _
  · exact h.elim
  · exact begins_word (w := "module") (by decide) (by decide) (.cons rfl)
  · exact begins_word (w := "class") (by decide) (by decide) (.cons rfl)
  · exact begins_word (w := "class") (by decide) (by decide) (.cons rfl)
  · exact begins_word (w := "class") (by decide) (by decide) (.cons rfl)

theorem stops_path {s : String} (path : isConstantPath s = true) (rest : List Char) :
    Stops Text.isBlank (s.toList ++ rest) := by
  obtain ⟨nonempty, stop, -⟩ := begins_path path rest
  exact stop.mono fun c blank => by simp [blank]

theorem reads_superclass?_none (ends : EndsHeader x) : Reads superclass? x x (· = none) :=
  (reads_skipSpaces_stay (ends.stops rfl rfl)).followedBy <|
    (reads_eat_no (ends.stops rfl rfl)).followedBy (reads_pure rfl)

theorem reads_superclass?_some {name : String} (clean : Clean endsSuperclass name)
    (ends : EndsHeader x) :
    Reads superclass? (' ' :: '<' :: ' ' :: (name.toList ++ x)) x (· = some name) := by
  have stop : EndsRaw endsSuperclass x := ends.stops rfl rfl
  refine (reads_skipSpaces_one (.cons rfl)).followedBy ?_
  refine (reads_eat '<').followedBy ?_
  refine (reads_skipSpaces_one (clean.stops_blank x).lineSpace).followedBy ?_
  exact (reads_someText clean stop).followedBy (reads_pure rfl)

/-- A class with a name. -/
theorem reads_classHeader {name : String} {superclass : Option String}
    (path : isConstantPath name = true) (stop : Stops inPath x)
    (read : Reads superclass? x y (· = superclass)) :
    Reads classHeader (' ' :: (name.toList ++ x)) y
      (· = { kind := .classDef superclass, name }) := by
  refine (reads_skipSpaces_one (stops_path path x).lineSpace).followedBy ?_
  refine (reads_eatText_no ?_).followedBy ?_
  · obtain ⟨c, cs, text, first⟩ := constantPath_head path
    rw [text]
    rintro ⟨t, same⟩
    obtain rfl : '<' = c := (List.cons_eq_cons.1 same).1
    rcases first with upper | ⟨colon, -⟩
    · cases upper
    · cases colon
  · exact (reads_constantName path stop).followedBy (read.followedBy (reads_pure rfl))

theorem reads_header {s : Scope} (h : s.Printable) (ends : EndsHeader x) :
    Reads statement (headerText s ++ x) x (· = .header s) := by
  have stop : Stops inPath x := ends.stops rfl rfl
  obtain ⟨kind, name⟩ := s
  rcases kind with _ | _ | (_ | superclass) | _
  · exact h.elim
  · have path : isConstantPath name = true := h
    show Reads statement ("module".toList ++ ' ' :: name.toList ++ x) _ _
    rw [List.append_assoc]
    refine reads_statement_keyword (by decide) rfl (.cons rfl) ?_
    refine (reads_skipSpaces_one (stops_path path x).lineSpace).followedBy ?_
    exact (reads_constantName path stop).followedBy (reads_pure rfl)
  · show Reads statement ("class".toList ++ ' ' :: name.toList ++ x) _ _
    rw [List.append_assoc]
    refine reads_statement_keyword (by decide) rfl (.cons rfl) ?_
    exact (reads_classHeader h.1 stop (reads_superclass?_none ends)).followedBy (reads_pure rfl)
  · have text : headerText { kind := .classDef (some superclass), name } ++ x =
        "class".toList ++ ' ' :: (name.toList ++ ' ' :: '<' :: ' ' :: (superclass.toList ++ x)) := by
      simp [headerText]
    rw [text]
    refine reads_statement_keyword (by decide) rfl (.cons rfl) ?_
    refine Reads.followedBy (reads_classHeader h.1 (.cons rfl) ?_) (reads_pure rfl)
    exact reads_superclass?_some (h.2 superclass rfl) ends
  · obtain rfl : name = singletonName := h
    refine reads_statement_keyword (w := "class") (by decide) rfl (.cons rfl) ?_
    have self : Reads classHeader (' ' :: '<' :: '<' :: ' ' :: ("self".toList ++ x)) x
        (· = { kind := .singletonClass, name := singletonName }) := by
      refine (reads_skipSpaces_one (.cons rfl)).followedBy ?_
      refine (reads_eatText ['<', '<']).followedBy ?_
      refine (reads_skipSpaces_one (.cons rfl)).followedBy ?_
      refine (reads_expectKeyword _ (by decide) (by decide) ?_).followedBy (reads_pure rfl)
      exact ends.stops rfl rfl
    exact self.followedBy (reads_pure rfl)

/-! ## Lines of a file -/

/-- Reads the rest of a file. -/
abbrev fileFrom (f : OpenFile) : Reader (List Outline) :=
  loop fileStep moves_fileStep f

variable {text : List Char} {F : OpenFile → Prop}

theorem reads_blankLine (h : text.dropWhile isLineSpace = '\n' :: x) :
    Reads (fileStep f) text x fun t => ∃ f', t = .again f' ∧
      ∃ loc, f' = { f with statements := .mk { Node.blank with loc } [] :: f.statements } := by
  refine (reads_skipSpaces_to h).followedBy ?_
  refine reads_here.bind fun start _ => ?_
  refine (reads_eat '\n').followedBy ?_
  exact (reads_locate start start).bind fun loc _ => reads_pure ⟨_, rfl, loc, rfl⟩

theorem reads_commentLine {line : String} (good : IsCommentLine line)
    (h : text.dropWhile isLineSpace = commentText line ++ '\n' :: x) :
    Reads (fileStep f) text x fun t => ∃ f', t = .again f' ∧
      ∃ r : Remark, r.comment.text = line ∧ f' = f.await [r] := by
  obtain ⟨more, begins⟩ := stops_commentText line ('\n' :: x)
  refine (reads_skipSpaces_to h).followedBy ?_
  refine reads_here.bind fun start _ => ?_
  refine (reads_eat_no ?_).followedBy ?_
  · rw [begins]
    exact .cons rfl
  refine (reads_remark? good).bind fun r found => ?_
  obtain ⟨remark, rfl, same⟩ := found
  exact (reads_eat '\n').followedBy (reads_pure ⟨_, rfl, remark, same, rfl⟩)

/-- A line on which something begins that is neither a comment nor an empty line. -/
theorem reads_otherLine {t : List Char} {Q : Turn OpenFile (List Outline) → Prop} (nonempty : t ≠ [])
    (stop : Stops (fun c => Text.isBlank c || c = '#') t)
    (h : text.dropWhile isLineSpace = t ++ x)
    (rest : ∀ start, Reads (do
        if ← eatKeyword "end" then closeScope f start
        else
          let s ← statement
          let f ← closeStatement f start s
          return .again f) (t ++ x) y Q) :
    Reads (fileStep f) text y Q := by
  have front := stop.append (y := x) nonempty
  refine (reads_skipSpaces_to h).followedBy ?_
  refine reads_here.bind fun start _ => ?_
  refine (reads_eat_no (front.mono ?_)).followedBy ?_
  · intro c same
    rw [of_decide_eq_true same]
    decide
  refine (reads_remark?_no (front.mono ?_)).followedBy ?_
  · intro c same
    rw [of_decide_eq_true same]
    decide
  refine (reads_atEnd_no (by simp [nonempty])).followedBy ?_
  exact rest start

/-- A statement, and what becomes of the file after it. -/
theorem reads_statementLine {t : List Char} {P : Statement → Prop} (begins : Begins t)
    (h : text.dropWhile isLineSpace = t ++ '\n' :: x)
    (read : Reads statement (t ++ '\n' :: x) y P)
    (close : ∀ start s, P s → Reads (closeStatement f start s) y z F) :
    Reads (fileStep f) text z fun t => ∃ f', t = .again f' ∧ F f' := by
  refine reads_otherLine begins.1 begins.2.1 h fun start => ?_
  refine (reads_eatKeyword_no (begins.2.2 x)).followedBy ?_
  refine read.bind fun s holds => ?_
  exact (close start s holds).bind fun f' good => reads_pure ⟨f', rfl, good⟩

theorem danglingSig?_eq_none (sigs : f.sigs = []) : f.danglingSig? = none := by
  rw [OpenFile.danglingSig?, sigs]
  rfl

theorem dangling?_eq_none (remarks : f.remarks = []) (sigs : f.sigs = []) : f.dangling? = none := by
  rw [OpenFile.dangling?, remarks, danglingSig?_eq_none sigs]
  rfl

/-- The `end` of a scope. -/
theorem reads_endLine {s : OpenScope} {outer : List OpenScope} (scopes : f.scopes = s :: outer)
    (remarks : f.remarks = []) (sigs : f.sigs = [])
    (h : text.dropWhile isLineSpace = 'e' :: 'n' :: 'd' :: '\n' :: x) :
    Reads (fileStep f) text x fun t => ∃ f', t = .again f' ∧ ∃ loc, f' =
      { statements := .mk { decl := .scope s.scope, comments := s.comments, loc }
          f.statements.reverse :: s.earlier, scopes := outer } := by
  refine reads_otherLine (t := "end".toList) (by decide) (by decide) h fun start => ?_
  have ends : Reads (eatKeyword "end") ('e' :: 'n' :: 'd' :: '\n' :: x) ('\n' :: x) (· = true) :=
    reads_eatKeyword (by decide) (by decide) (.cons rfl)
  refine ends.followedBy ?_
  rw [if_pos rfl, closeScope, dangling?_eq_none remarks sigs, scopes]
  refine Reads.followedBy (reads_pure rfl) ?_
  refine reads_here.bind fun stop _ => ?_
  refine reads_finishLine.followedBy ?_
  refine (reads_locate s.start stop).bind fun loc _ => reads_pure ⟨_, rfl, loc, ?_⟩
  simp

/-- The end of the file. -/
theorem reads_lastLine (scopes : f.scopes = []) (remarks : f.remarks = []) (sigs : f.sigs = []) :
    Reads (fileStep f) [] [] fun t => ∃ r, t = .done r ∧ r = f.statements.reverse := by
  refine (reads_skipSpaces_stay .nil).followedBy ?_
  refine reads_here.bind fun start _ => ?_
  refine (reads_eat_no .nil).followedBy ?_
  refine (reads_remark?_no .nil).followedBy ?_
  refine (reads_look _).followedBy ?_
  rw [if_pos List.isEmpty_nil, closeFile, dangling?_eq_none remarks sigs, scopes]
  exact Reads.followedBy (reads_pure rfl) (reads_pure ⟨_, rfl, rfl⟩)

/-! ## What waits for a declaration -/

/-- Since `f` only comments and signatures have been read. -/
structure Waits (f f' : OpenFile) (lines : List String) (sigs : List Sig) : Prop where
  comments : f'.waiting.map Comment.unlocated = lines.map fun line => { text := line }
  sigs : f'.sigs.reverse.map (fun s => s.1.unlocated) = sigs
  scopes : f'.scopes = f.scopes
  statements : f'.statements = f.statements

variable {f' : OpenFile} {lines : List String} {sigs : List Sig}

theorem waits_start (remarks : f.remarks = []) (none : f.sigs = []) : Waits f f [] [] where
  comments := by simp [OpenFile.waiting, remarks]
  sigs := by simp [none]
  scopes := rfl
  statements := rfl

theorem Waits.comment (h : Waits f f' lines sigs) (r : Remark) :
    Waits f (f'.await [r]) (lines ++ [r.comment.text]) sigs where
  comments := by
    have added : (f'.await [r]).waiting = f'.waiting ++ [r.comment] := by
      simp [OpenFile.waiting, OpenFile.await]
    rw [added, List.map_append, h.comments, List.map_append]
    rfl
  sigs := h.sigs
  scopes := h.scopes
  statements := h.statements

theorem Waits.sig (h : Waits f f' lines sigs) (s : Sig) (span : Span) :
    Waits f { f'.await [] with sigs := (s, span) :: f'.sigs } lines (sigs ++ [s.unlocated]) where
  comments := h.comments
  sigs := by simp [h.sigs]
  scopes := h.scopes
  statements := h.statements

/-- A line after its indentation. -/
theorem dropWhile_line (as : List Atom) {t : List Char} (laid : lay none as = t) (nonempty : t ≠ [])
    (stop : Stops isLineSpace t) (owed : Option Nat) (n : Nat) (rest : List Atom) :
    (lay owed (as ++ .line n :: rest)).dropWhile isLineSpace = t ++ '\n' :: lay (some n) rest := by
  rw [dropWhile_lay rfl, lay_append_line, laid, (stop.append nonempty).dropWhile_eq]

theorem Begins.lineSpace {t : List Char} (h : Begins t) : Stops isLineSpace t :=
  h.2.1.mono fun c space => by simp [Text.isBlank_of_isLineSpace space]

/-- What holds of a file that is being read and of the text that is left. If it holds after a step,
    then it holds before it. -/
def Backward (G : OpenFile → List Char → Prop) : Prop :=
  ∀ ⦃f : OpenFile⦄ ⦃x y : List Char⦄ ⦃S : OpenFile → Prop⦄,
    Reads (fileStep f) x y (fun t => ∃ f', t = .again f' ∧ S f') → (∀ f', S f' → G f' y) → G f x

theorem backward_reads {Q : List Outline → Prop} :
    Backward fun f x => Reads (fileFrom f) x z Q :=
  fun _ _ _ _ => Reads.again

variable {G : OpenFile → List Char → Prop}

/-- Comments before a statement. -/
theorem reads_comments (plain : o.colorize = false) (steps : Backward G) {n : Nat} {rest : List Atom} :
    ∀ (more done : List String) (f' : OpenFile) (owed : Option Nat),
      (∀ line ∈ more, IsCommentLine line) → Waits f f' done [] →
      (∀ f'' owed', Waits f f'' (done ++ more) [] → G f'' (lay owed' rest)) →
      G f' (lay owed (Doc.atomsAll n
        (more.flatMap fun line => [.text (o.commentLine line), .line]) ++ rest))
  | [], done, f', owed, _, waits, next => next f' owed (by simpa using waits)
  | line :: more, done, f', owed, good, waits, next => by
    have text : (lay owed (Doc.atomsAll n ((line :: more).flatMap fun line =>
        [.text (o.commentLine line), .line]) ++ rest)).dropWhile isLineSpace =
          commentText line ++ '\n' :: lay (some n) (Doc.atomsAll n
            (more.flatMap fun line => [.text (o.commentLine line), .line]) ++ rest) := by
      obtain ⟨cs, begins⟩ := stops_commentText line []
      rw [List.append_nil] at begins
      refine dropWhile_line [.text (o.commentLine line)] ?_ ?_ ?_ owed n _
      · rw [lay_none_text, lay_nil, List.append_nil, PrintOptions.toList_commentLine plain]
      · simp [begins]
      · rw [begins]
        exact .cons rfl
    refine steps (reads_commentLine (good line List.mem_cons_self) text) ?_
    rintro _ ⟨r, same, rfl⟩
    refine reads_comments plain steps more (done ++ [line]) _ (some n)
      (fun l member => good l (List.mem_cons_of_mem _ member)) (same ▸ waits.comment r) ?_
    simpa using next

theorem begins_sig (t : List Char) : Begins ("sig".toList ++ ' ' :: t) :=
  begins_word (by decide) (by decide) (.cons rfl)

/-- A signature, which waits after those before it. -/
theorem reads_sigLine {s : Sig} {t : List Char} {done : List Sig}
    (read : Reads sig (' ' :: (t ++ '\n' :: x)) ('\n' :: x) (ReadAsSig s.written.ops))
    (h : text.dropWhile isLineSpace = "sig".toList ++ ' ' :: t ++ '\n' :: x)
    (waits : Waits f f' lines done) :
    Reads (fileStep f') text x fun t => ∃ f'', t = .again f'' ∧
      Waits f f'' lines (done ++ [s.written]) := by
  have statement : Reads statement ("sig".toList ++ ' ' :: t ++ '\n' :: x) ('\n' :: x)
      fun st => ∃ s', st = .sig s' [] ∧ s'.unlocated = s.written := by
    rw [List.append_assoc]
    refine reads_statement_keyword (by decide) rfl (.cons rfl) ?_
    refine read.bind fun r same => reads_pure ⟨r.1, ?_, ?_⟩
    · rw [same.2]
      rfl
    · exact congrArg (Sig.mk ·) same.1
  refine reads_statementLine (begins_sig t) h statement ?_
  rintro start _ ⟨s', rfl, same⟩
  refine reads_here.bind fun stop _ => ?_
  refine reads_finishLine.followedBy (reads_pure ?_)
  exact same ▸ waits.sig s' _

/-- Signatures before a declaration. -/
theorem reads_sigs (plain : o.colorize = false) (steps : Backward G) (depth : Nat) {n : Nat}
    {rest : List Atom} :
    ∀ (more : List Sig) (done : List Sig) (f' : OpenFile) (owed : Option Nat),
      (∀ s ∈ more, s.Printable) → Waits f f' lines done →
      (∀ f'' owed', Waits f f'' lines (done ++ more.map Sig.written) →
        G f'' (lay owed' rest)) →
      G f' (lay owed (Doc.atomsAll n (o.sigDocs depth more) ++ rest))
  | [], done, f', owed, _, waits, next => next f' owed (by simpa using waits)
  | s :: more, done, f', owed, good, waits, next => by
    obtain ⟨t, laid, read⟩ := readsDoc_sig plain (good s List.mem_cons_self) depth n
    have begins := begins_sig t
    have atoms : Doc.atomsAll n (o.sigDocs depth (s :: more)) ++ rest =
        (s.doc o depth).atoms n ++ .line n :: (Doc.atomsAll n (o.sigDocs depth more) ++ rest) := by
      simp [PrintOptions.sigDocs, Doc.atomsAll, Doc.atoms]
    have text := dropWhile_line _ laid begins.1 begins.lineSpace owed n
      (Doc.atomsAll n (o.sigDocs depth more) ++ rest)
    rw [atoms]
    refine steps (reads_sigLine (read _) text waits) fun f'' waits' => ?_
    refine reads_sigs plain steps depth more (done ++ [s.written]) f'' (some n)
      (fun s member => good s (List.mem_cons_of_mem _ member)) waits' ?_
    simpa using next

/-! ## Statements -/

/-- Since `f` the statements `os` have been read, locations aside, and nothing waits. -/
structure Adds (f f' : OpenFile) (os : List Outline) : Prop where
  remarks : f'.remarks = []
  sigs : f'.sigs = []
  scopes : f'.scopes = f.scopes
  statements : ∃ new, f'.statements = new.reverse ++ f.statements ∧ Outline.unlocatedAll new = os

theorem unlocatedAll_append : ∀ os os' : List Outline,
    Outline.unlocatedAll (os ++ os') = Outline.unlocatedAll os ++ Outline.unlocatedAll os'
  | [], _ => rfl
  | o :: os, os' => by
    rw [List.cons_append, Outline.unlocatedAll, unlocatedAll_append os os', Outline.unlocatedAll]
    rfl

theorem adds_nil (remarks : f.remarks = []) (sigs : f.sigs = []) : Adds f f [] :=
  ⟨remarks, sigs, rfl, [], rfl, rfl⟩

theorem Adds.trans {f'' : OpenFile} {os os' : List Outline} (h : Adds f f' os)
    (h' : Adds f' f'' os') : Adds f f'' (os ++ os') := by
  obtain ⟨-, -, scopes, new, statements, same⟩ := h
  obtain ⟨remarks, sigs, scopes', new', statements', same'⟩ := h'
  refine ⟨remarks, sigs, scopes'.trans scopes, new ++ new', ?_, ?_⟩
  · rw [statements', statements, List.reverse_append, List.append_assoc]
  · rw [unlocatedAll_append, same, same']

theorem adds_statement {new : Outline} {os : Outline} (scopes : f'.scopes = f.scopes)
    (remarks : f'.remarks = []) (sigs : f'.sigs = [])
    (statements : f'.statements = new :: f.statements) (same : new.unlocated = os) :
    Adds f f' [os] :=
  ⟨remarks, sigs, scopes, [new], statements, by rw [← same]; rfl⟩

theorem Waits.unlocated {node : Node} (h : Waits f f' (commentLines node.comments) sigs)
    {decl : Declaration} (same : decl.unlocated = node.decl.written) (loc : Option Location)
    (body : List Outline) :
    (Outline.mk { decl, comments := f'.waiting, loc } body).unlocated =
      .mk node.written (Outline.unlocatedAll body) := by
  have comments : f'.waiting.map Comment.unlocated = writtenComments node.comments := h.comments
  rw [Outline.unlocated, Node.unlocated, Node.written, same, comments]

/-- A declaration without a body takes what waits. -/
theorem reads_leafLine {as : List Atom} {node : Node}
    (leaf : ReadsLeaf (lay none as) node.decl.written.unsigned)
    (waits : Waits f f' (commentLines node.comments) (node.decl.sigs.map Sig.written))
    (owed : Option Nat) (n : Nat) (rest : List Atom) :
    Reads (fileStep f') (lay owed (as ++ .line n :: rest)) (lay (some n) rest)
      fun t => ∃ f'', t = .again f'' ∧ Adds f f'' [.mk node.written []] := by
  obtain ⟨begins, read⟩ := leaf
  have text := dropWhile_line _ rfl begins.1 begins.lineSpace owed n rest
  refine reads_statementLine begins text (read _) ?_
  rintro start _ ⟨d, rfl, same⟩
  have read : (f'.sigs.reverse.map Prod.fst).map Sig.unlocated = node.decl.sigs.map Sig.written := by
    rw [List.map_map]
    exact waits.sigs
  obtain ⟨full, dangling⟩ := Declaration.unlocated_signed same read
  refine reads_here.bind fun stop _ => ?_
  refine reads_finishLine.followedBy ?_
  refine (reads_locate start stop).bind fun loc _ => ?_
  cases signed : d.withSigs? (f'.sigs.reverse.map Prod.fst) with
  | some d' =>
    rw [signed, Option.getD_some] at full
    exact reads_pure (adds_statement waits.scopes rfl rfl (congrArg (_ :: ·) waits.statements)
      (waits.unlocated full (some loc) []))
  | none =>
    rw [signed, Option.getD_none] at full
    have none : f'.sigs = [] := by simpa using dangling signed
    show Reads (check f'.danglingSig? >>= _) _ _ _
    rw [danglingSig?_eq_none none]
    refine Reads.followedBy (reads_pure rfl) ?_
    exact reads_pure (adds_statement waits.scopes rfl none (congrArg (_ :: ·) waits.statements)
      (waits.unlocated full (some loc) []))

/-! ## Scopes -/

/-- A scope without statements on one line. -/
theorem reads_emptyScopeLine {s : Scope} (h : s.Printable) {node : Node} (scope : node.decl = .scope s)
    (waits : Waits f f' (commentLines node.comments) [])
    (start : text.dropWhile isLineSpace = headerText s ++ [';', ' ', 'e', 'n', 'd'] ++ '\n' :: x) :
    Reads (fileStep f') text x fun t => ∃ f'', t = .again f'' ∧ Adds f f'' [.mk node.written []] := by
  have none : f'.sigs = [] := by simpa using waits.sigs
  have read : Reads statement (headerText s ++ [';', ' ', 'e', 'n', 'd'] ++ '\n' :: x)
      (';' :: ' ' :: 'e' :: 'n' :: 'd' :: '\n' :: x) (· = .header s) := by
    rw [List.append_assoc]
    exact reads_header h ⟨_, _, rfl, .inl rfl⟩
  refine reads_statementLine (begins_header h _) start read ?_
  rintro begin _ rfl
  show Reads (check f'.danglingSig? >>= _) _ _ _
  rw [danglingSig?_eq_none none]
  refine Reads.followedBy (reads_pure rfl) ?_
  refine (reads_skipSpaces_stay (.cons rfl)).followedBy ?_
  refine (reads_eat ';').followedBy ?_
  refine (reads_skipSpaces_one (.cons rfl)).followedBy ?_
  refine (reads_end (.cons rfl)).followedBy ?_
  refine reads_here.bind fun stop _ => ?_
  refine reads_finishLine.followedBy ?_
  refine (reads_locate begin stop).bind fun loc _ => ?_
  have same : (Declaration.scope s).unlocated = node.decl.written := by rw [scope]; rfl
  exact reads_pure (adds_statement waits.scopes rfl none (congrArg (_ :: ·) waits.statements)
    (waits.unlocated same (some loc) []))

/-- The header of a scope that stays open. -/
theorem reads_headerLine {s : Scope} (h : s.Printable) {node : Node}
    (waits : Waits f f' (commentLines node.comments) [])
    (shallow : f.scopes.length < nestingLimit)
    (start : text.dropWhile isLineSpace = headerText s ++ '\n' :: x) :
    Reads (fileStep f') text x fun t => ∃ f'', t = .again f'' ∧ ∃ opened : OpenScope,
      f'' = { scopes := opened :: f.scopes } ∧ opened.scope = s ∧ opened.comments = f'.waiting ∧
        opened.earlier = f.statements := by
  have none : f'.sigs = [] := by simpa using waits.sigs
  have read : Reads statement (headerText s ++ '\n' :: x) ('\n' :: x) (· = .header s) :=
    reads_header h ⟨_, _, rfl, .inr rfl⟩
  have begins := begins_header h []
  rw [List.append_nil] at begins
  refine reads_statementLine begins start read ?_
  rintro begin _ rfl
  show Reads (check f'.danglingSig? >>= _) _ _ _
  rw [danglingSig?_eq_none none]
  refine Reads.followedBy (reads_pure rfl) ?_
  refine (reads_skipSpaces_stay (.cons rfl)).followedBy ?_
  refine (reads_eat_no (.cons rfl)).followedBy ?_
  refine reads_here.bind fun stop _ => ?_
  refine reads_finishLine.followedBy ?_
  rw [if_neg (by rw [waits.scopes]; omega), waits.scopes]
  exact reads_pure ⟨_, rfl, rfl, rfl, waits.statements⟩

/-! ## All statements -/

/-- An empty line, which has no comments. -/
theorem reads_blankStatement (steps : Backward G) {node : Node} (decl : node.decl = .blank)
    (blank : node.isBlank = true → node.comments = [])
    (waits : Waits f f' (commentLines node.comments) []) (depth n k : Nat) (owed : Option Nat)
    (rest : List Atom)
    (next : ∀ f'', Adds f f'' [.mk node.written []] → G f'' (lay (some k) rest)) :
    G f' (lay owed (Doc.atomsAll n (o.leafDocs depth .blank) ++ .line k :: rest)) := by
  have text : (lay owed (Doc.atomsAll n (o.leafDocs depth .blank) ++ .line k :: rest)).dropWhile
      isLineSpace = '\n' :: lay (some k) rest := by
    rw [PrintOptions.leafDocs, Doc.atomsAll, List.nil_append, lay_line,
      List.dropWhile_cons_of_neg (by decide)]
  have silent : node.comments = [] := blank (by simp [Node.isBlank, decl])
  have written : Outline.mk node.written [] = .mk Node.blank [] := by
    rw [Node.written, decl, silent]
    rfl
  have remarks : f'.remarks = [] := by
    simpa [OpenFile.waiting, silent, commentLines] using waits.comments
  refine steps (reads_blankLine text) ?_
  rintro _ ⟨loc, rfl⟩
  refine next _ (adds_statement waits.scopes remarks (by simpa using waits.sigs)
    (congrArg (_ :: ·) waits.statements) ?_)
  rw [written]
  rfl

/-- A statement without a body, after its comments. -/
theorem reads_leafStatement (plain : o.colorize = false) (steps : Backward G) {node : Node}
    (h : node.Printable o) (leaf : node.isScope = false) (waits : Waits f f' (commentLines node.comments) [])
    (depth n k : Nat) (owed : Option Nat) (rest : List Atom)
    (next : ∀ f'', Adds f f'' [.mk node.written []] → G f'' (lay (some k) rest)) :
    G f' (lay owed (Doc.atomsAll n (o.leafDocs depth node.decl) ++ .line k :: rest)) := by
  obtain ⟨fits, -, blank⟩ := h
  have one : ∀ doc : Doc, Doc.atomsAll n [doc] = doc.atoms n := fun doc => List.append_nil _
  cases decl : node.decl with
  | scope s => simp [Node.isScope, Node.scope?, decl] at leaf
  | const c =>
    rw [decl] at fits
    rw [PrintOptions.leafDocs, one]
    exact steps (reads_leafLine (decl ▸ readsLeaf_constant fits n) (decl ▸ waits) owed k rest) next
  | call c =>
    rw [decl] at fits
    rw [PrintOptions.leafDocs, one]
    have laid : ReadsLeaf (lay none ((Doc.text (c.render o)).atoms n)) (.call c) := by
      rw [Doc.atoms, lay_none_text, lay_nil, List.append_nil]
      exact readsLeaf_call fits
    exact steps (reads_leafLine (decl ▸ laid) (decl ▸ waits) owed k rest) next
  | method m =>
    rw [decl] at fits
    rw [PrintOptions.leafDocs, Doc.atomsAll_append, one, List.append_assoc]
    refine reads_sigs plain steps depth m.sigs [] f' owed fits.2.2 waits fun f'' owed' waits' => ?_
    exact steps (reads_leafLine (decl ▸ readsLeaf_method plain fits n) (decl ▸ waits') owed' k rest) next
  | attr a =>
    rw [decl] at fits
    rw [PrintOptions.leafDocs, Doc.atomsAll_append, one, List.append_assoc]
    refine reads_sigs plain steps depth a.sigs [] f' owed fits.2.2 waits fun f'' owed' waits' => ?_
    exact steps (reads_leafLine (decl ▸ readsLeaf_attribute plain fits n) (decl ▸ waits') owed' k rest) next
  | blank => exact reads_blankStatement steps decl blank waits depth n k owed rest next

/-- A scope that is open when its statements are read, from its header to its `end`. -/
theorem reads_openScope (plain : o.colorize = false) (steps : Backward G) {node : Node} {s : Scope}
    (scope : node.decl = .scope s) (h : s.Printable)
    (waits : Waits f f' (commentLines node.comments) []) (shallow : f.scopes.length < nestingLimit)
    {n k c : Nat} {body rest : List Atom} {os : List Outline} (owed : Option Nat)
    (inside : ∀ f₁ : OpenFile, f₁.scopes.length = f.scopes.length + 1 → f₁.remarks = [] →
      f₁.sigs = [] → (∀ f₂, Adds f₁ f₂ os →
        G f₂ (lay (some n) (.text (o.keyword "end") :: .line k :: rest))) →
          G f₁ (lay (some c) body))
    (next : ∀ f'', Adds f f'' [.mk node.written os] → G f'' (lay (some k) rest)) :
    G f' (lay owed (Doc.atomsAll n (o.headerDocs s) ++ .line c :: body)) := by
  have begins := begins_header h []
  rw [List.append_nil] at begins
  have laid : lay none (Doc.atomsAll n (o.headerDocs s)) = headerText s := by
    have header := lay_headerDocs plain s n []
    rwa [List.append_nil, lay_nil, List.append_nil] at header
  have text := dropWhile_line _ laid begins.1 begins.lineSpace owed c body
  refine steps (reads_headerLine h waits shallow text) ?_
  rintro _ ⟨opened, rfl, isScope, comments, earlier⟩
  refine inside { scopes := opened :: f.scopes } rfl rfl rfl fun f₂ adds => ?_
  obtain ⟨remarks, sigs, scopes, new, statements, same⟩ := adds
  have ends : (lay (some n) (.text (o.keyword "end") :: .line k :: rest)).dropWhile isLineSpace =
      'e' :: 'n' :: 'd' :: '\n' :: lay (some k) rest := by
    rw [keyword_plain plain]
    exact dropWhile_line [.text "end"] rfl (by decide) (by decide) (some n) k rest
  refine steps (reads_endLine scopes remarks sigs ends) ?_
  rintro _ ⟨loc, rfl⟩
  have decl : (Declaration.scope opened.scope).unlocated = node.decl.written := by
    rw [scope, isScope]
    rfl
  refine next _ (adds_statement rfl rfl rfl (congrArg (_ :: ·) earlier) ?_)
  rw [comments, waits.unlocated decl loc, statements, List.append_nil, List.reverse_reverse, same]

theorem exists_scope {node : Node} (h : node.isScope = true) : ∃ s, node.decl = .scope s := by
  cases decl : node.decl with
  | scope s => exact ⟨s, rfl⟩
  | _ => simp [Node.isScope, Node.scope?, decl] at h

theorem statementDoc_leaf {node : Node} (leaf : node.isScope = false) (depth : Nat)
    (body : List Outline) : o.statementDoc depth (.mk node body) =
      .concat (o.commentDocs node.comments ++ o.leafDocs depth node.decl) := by
  rw [PrintOptions.statementDoc]
  cases decl : node.decl with
  | scope s => simp [Node.isScope, Node.scope?, decl] at leaf
  | _ => rfl

/-- A file inside another scope is its bare statements. -/
theorem statementDoc_file {node : Node} {s : Scope} (scope : node.decl = .scope s)
    (file : s.kind = .root) (depth : Nat) (body : List Outline) :
    o.statementDoc depth (.mk node body) =
      .concat (o.commentDocs node.comments ++ (o.bodyDocs depth body).tail) := by
  obtain ⟨kind, name⟩ := s
  subst file
  rw [PrintOptions.statementDoc, scope]

theorem statementDoc_scope {node : Node} {s : Scope} (scope : node.decl = .scope s)
    (headed : s.kind ≠ .root) (depth : Nat) (body : List Outline) :
    o.statementDoc depth (.mk node body) = .concat (o.commentDocs node.comments ++
      if body.isEmpty then o.headerDocs s ++ o.emptyEnd
      else o.headerDocs s ++ [.nest o.indentWidth (.concat (o.bodyDocs (depth + 1) body)),
        .line, .text (o.keyword "end")]) := by
  obtain ⟨kind, name⟩ := s
  rw [PrintOptions.statementDoc, scope]
  cases kind with
  | root => exact absurd rfl headed
  | _ => rfl

/-- A scope is its header and its end, on one line if it is empty and not folded, with its body
    between them otherwise. -/
theorem atoms_scope {node : Node} {s : Scope} (scope : node.decl = .scope s) (headed : s.kind ≠ .root)
    (depth n : Nat) (body : List Outline) :
    (o.statementDoc depth (.mk node body)).atoms n =
      Doc.atomsAll n (o.commentDocs node.comments) ++ (Doc.atomsAll n (o.headerDocs s) ++
        if body = [] ∧ o.foldEmptyScopes = false then [.text "; ", .text (o.keyword "end")]
        else Doc.atomsAll (n + o.indentWidth) (o.bodyDocs (depth + 1) body) ++
          [.line n, .text (o.keyword "end")]) := by
  rw [statementDoc_scope scope headed, Doc.atoms, Doc.atomsAll_append]
  cases body with
  | nil =>
    cases fold : o.foldEmptyScopes <;>
      simp [PrintOptions.emptyEnd, PrintOptions.bodyDocs, fold, Doc.atomsAll, Doc.atoms]
  | cons first os => simp [Doc.atomsAll, Doc.atoms]

mutual

/-- Every printable statement is read back from its printed form. -/
theorem reads_outline (plain : o.colorize = false) (steps : Backward G) : ∀ (os : Outline)
    (depth n k : Nat) (rest : List Atom) (f : OpenFile) (owed : Option Nat), os.printable o depth = true →
      f.scopes.length = depth → f.remarks = [] → f.sigs = [] →
      (∀ f', Adds f f' [os.written] → G f' (lay (some k) rest)) →
      G f (lay owed ((o.statementDoc depth os).atoms n ++ .line k :: rest))
  | .mk node body, depth, n, k, rest, f, owed, h, around, remarks, sigs, next => by
    rw [Outline.printable, Bool.and_eq_true, decide_eq_true_eq] at h
    obtain ⟨printable, inside⟩ := h
    have lines := isCommentLine_of_printable printable.2.1
    have first := waits_start remarks sigs
    cases isScope : node.isScope with
    | false =>
      obtain rfl : body = [] := by simpa [isScope] using inside
      rw [statementDoc_leaf isScope, Doc.atoms, Doc.atomsAll_append, List.append_assoc]
      refine reads_comments plain steps _ [] f owed lines first fun f' owed' waits => ?_
      exact reads_leafStatement plain steps printable isScope waits depth n k owed' rest next
    | true =>
      obtain ⟨s, scope⟩ := exists_scope isScope
      have fits : s.Printable := by
        have := printable.1
        rwa [scope] at this
      rw [isScope, if_pos rfl, Bool.and_eq_true] at inside
      rw [atoms_scope scope fits.kind_ne_root, List.append_assoc, List.append_assoc]
      refine reads_comments plain steps _ [] f owed lines first fun f' owed' waits => ?_
      by_cases line : body = [] ∧ o.foldEmptyScopes = false
      · rw [if_pos line, ← List.append_assoc]
        obtain ⟨rfl, -⟩ := line
        have laid : lay none (Doc.atomsAll n (o.headerDocs s) ++
            [.text "; ", .text (o.keyword "end")]) = headerText s ++ [';', ' ', 'e', 'n', 'd'] := by
          rw [lay_headerDocs plain, keyword_plain plain]
          rfl
        have begins := begins_header fits [';', ' ', 'e', 'n', 'd']
        have text := dropWhile_line _ laid begins.1 begins.lineSpace owed' k rest
        exact steps (reads_emptyScopeLine fits scope waits text) next
      · rw [if_neg line, List.append_assoc]
        obtain ⟨c, as, atoms, read⟩ := reads_body plain steps body (depth + 1) (n + o.indentWidth) n
          (.text (o.keyword "end") :: .line k :: rest) inside.2
        show G _ (lay owed' (_ ++ (_ ++ .line n :: .text (o.keyword "end") :: .line k :: rest)))
        rw [atoms]
        have shallow : f.scopes.length < nestingLimit := by
          have room := inside.1
          rw [Bool.or_eq_true, decide_eq_true_eq] at room
          rw [around]
          refine room.resolve_right fun inline => line ?_
          simpa using inline
        exact reads_openScope plain steps scope fits waits shallow owed'
          (fun f₁ deep => read f₁ (by rw [deep, around])) next

/-- Every printable body is read back; the line break before it has been read. -/
theorem reads_body (plain : o.colorize = false) (steps : Backward G) : ∀ (os : List Outline)
    (depth m n : Nat) (rest : List Atom), Outline.printableAll o depth os = true →
      ∃ c as, Doc.atomsAll m (o.bodyDocs depth os) ++ .line n :: rest = .line c :: as ∧
        ∀ f : OpenFile, f.scopes.length = depth → f.remarks = [] → f.sigs = [] →
          (∀ f', Adds f f' (Outline.writtenAll os) → G f' (lay (some n) rest)) →
            G f (lay (some c) as)
  | [], depth, m, n, rest, _ =>
    ⟨n, rest, rfl, fun f _ remarks sigs next => next f (adds_nil remarks sigs)⟩
  | first :: os, depth, m, n, rest, h => by
    rw [Outline.printableAll, Bool.and_eq_true] at h
    obtain ⟨c, as, atoms, read⟩ := reads_body plain steps os depth m n rest h.2
    refine ⟨m, (o.statementDoc depth first).atoms m ++ .line c :: as, ?_, ?_⟩
    · rw [PrintOptions.bodyDocs, Doc.atomsAll, Doc.atomsAll, Doc.atoms, ← atoms]
      simp
    · intro f depth' remarks sigs next
      refine reads_outline plain steps first depth m c as f (some m) h.1 depth' remarks sigs
        fun f' adds => ?_
      refine read f' (by rw [adds.scopes, depth']) adds.remarks adds.sigs fun f'' adds' => ?_
      exact next f'' (adds.trans adds')

end

end Reader

end InterfaceFile
