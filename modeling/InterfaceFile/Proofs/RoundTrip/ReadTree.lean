import InterfaceFile.Proofs.Bytes.ScriptedFile
import InterfaceFile.Proofs.RoundTrip.ReadFile
import InterfaceFile.Proofs.RoundTrip.Reprint
import InterfaceFile.Proofs.Tree.Grafts

/-!
# The text of a tree is read back

The text of a printable tree is a file, and the tree that is read from it says what was written.
-/

namespace InterfaceFile

namespace Tree

/-! ## Trees of outlines -/

theorem laidOut_ofOutlines (strictness : Option String) (body : List Outline) :
    (Outline.mk .root body).LaidOut (ofOutlines strictness body).slot root none := by
  refine Outline.laidOut_of_slots fun i s found => ?_
  rw [slot, ofOutlines, List.getElem?_toArray, Nat.zero_add, found]
  rfl

theorem size_ofOutlines (strictness : Option String) (body : List Outline) :
    (ofOutlines strictness body).size = (Outline.mk .root body).size := by
  simp [size, ofOutlines]

mutual

/-- A laid out statement is what its slot says. -/
theorem outlineUpTo_eq {t : Tree} {id : NodeId} {parent : Option NodeId} :
    ∀ {n : Nat} {o : Outline}, o.LaidOut t.slot id parent → o.size ≤ n → t.outlineUpTo n id = o
  | 0, .mk node body, _, small => by
    rw [Outline.size] at small
    omega
  | n + 1, .mk node body, ⟨own, inside⟩, small => by
    rw [Outline.size] at small
    rw [outlineUpTo, Tree.node, Tree.body, own, map_outlineUpTo inside (by omega)]

theorem map_outlineUpTo {t : Tree} {next : NodeId} {parent : Option NodeId} :
    ∀ {n : Nat} {os : List Outline}, Outline.LaidOutAll t.slot next parent os →
      Outline.sizeAll os ≤ n → (Outline.numbers next os).map (t.outlineUpTo n) = os
  | _, [], _, _ => rfl
  | n, o :: os, ⟨first, rest⟩, small => by
    rw [Outline.sizeAll] at small
    rw [Outline.numbers, List.map_cons, outlineUpTo_eq first (by omega),
      map_outlineUpTo rest (by omega)]

end

/-- A tree says what it was made of. -/
theorem outline_ofOutlines (strictness : Option String) (body : List Outline) :
    (ofOutlines strictness body).outline root = .mk .root body :=
  outlineUpTo_eq (laidOut_ofOutlines strictness body) (Nat.le_of_eq (size_ofOutlines _ _).symm)

end Tree

namespace Reader

variable {o : PrintOptions}

/-! ## Statements at the top of a file -/

/-- The documents of the statements of a file. -/
def topDocs (o : PrintOptions) (body : List Outline) : List Doc :=
  body.flatMap fun statement => [o.statementDoc 0 statement, .line]

theorem fileDoc_eq (unlocated : o.printLocations = false) (strictness : Option String)
    (body : List Outline) : o.fileDoc strictness body =
      .concat (o.strictnessDocs (o.strictness <|> strictness) ++ topDocs o body) := by
  have none : ∀ node, o.locationDocs node = [] := by
    intro node
    rw [PrintOptions.locationDocs]
    split
    · simp [unlocated]
    · rfl
  simp only [PrintOptions.fileDoc, topDocs, none, List.nil_append]

theorem reads_topDocs (plain : o.colorize = false) : ∀ (body : List Outline) (f : OpenFile)
    (owed : Option Nat), Outline.printableAll o 0 body = true → f.scopes = [] → f.remarks = [] →
      f.sigs = [] → Reads (fileFrom f) (lay owed (Doc.atomsAll 0 (topDocs o body))) []
        fun r => ∃ new, r = f.statements.reverse ++ new ∧
          Outline.unlocatedAll new = Outline.writtenAll body
  | [], f, owed, _, scopes, remarks, sigs => by
    have text : lay owed (Doc.atomsAll 0 (topDocs o [])) = [] := lay_nil owed
    rw [text]
    refine Reads.done ((reads_lastLine scopes remarks sigs).mono ?_)
    rintro _ ⟨r, rfl, rfl⟩
    exact ⟨_, rfl, [], (List.append_nil _).symm, rfl⟩
  | first :: body, f, owed, h, scopes, remarks, sigs => by
    rw [Outline.printableAll, Bool.and_eq_true] at h
    have atoms : Doc.atomsAll 0 (topDocs o (first :: body)) =
        (o.statementDoc 0 first).atoms 0 ++ .line 0 :: Doc.atomsAll 0 (topDocs o body) := by
      simp [topDocs, Doc.atomsAll, Doc.atoms]
    rw [atoms]
    refine reads_outline plain backward_reads first 0 0 0 _ f owed h.1 (by rw [scopes]; rfl) remarks sigs ?_
    rintro f' ⟨remarks', sigs', scopes', one, statements, same⟩
    refine (reads_topDocs plain body f' (some 0) h.2 (scopes'.trans scopes) remarks' sigs').mono ?_
    rintro _ ⟨new, rfl, same'⟩
    refine ⟨one ++ new, ?_, ?_⟩
    · rw [statements, List.reverse_append, List.reverse_reverse, List.append_assoc]
    · rw [unlocatedAll_append, same, same']
      rfl

/-! ## The level of a file -/

/-- The text without white space around it. -/
def trimmed (s : String) : String :=
  String.ofList (Text.trim s.toList)

theorem trim_dropTrailing (cs : List Char) : Text.trim (Text.dropTrailing '\r' cs) = Text.trim cs := by
  have split : Text.dropTrailing '\r' cs ++ (cs.reverse.takeWhile (· = '\r')).reverse = cs := by
    rw [Text.dropTrailing, ← List.reverse_append, List.takeWhile_append_dropWhile,
      List.reverse_reverse]
  have blank : ∀ c ∈ (cs.reverse.takeWhile (· = '\r')).reverse, Text.isBlank c = true := by
    intro c member
    have same := List.all_eq_true.1 List.all_takeWhile c (List.mem_reverse.1 member)
    rw [of_decide_eq_true same]
    decide
  rw [← Text.trim_append_blank blank, split]

theorem dropTrailing_append {c : Char} {ys : List Char} (h : Text.dropTrailing c ys ≠ [])
    (xs : List Char) : Text.dropTrailing c (xs ++ ys) = xs ++ Text.dropTrailing c ys := by
  rw [Text.dropTrailing] at h
  rw [Text.dropTrailing, List.reverse_append, List.dropWhile_append, if_neg (by simpa using h),
    List.reverse_append, List.reverse_reverse, Text.dropTrailing]

/-- A level is found again behind the word before it. -/
theorem trim_dropCopies (level : List Char) :
    Text.trim (Text.dropCopies "typed:".toList
      (Text.dropTrailing '\r' ("typed: ".toList ++ level))) = Text.trim level := by
  have first : ∃ rest, Text.dropTrailing '\r' (' ' :: level) = ' ' :: rest := by
    rw [Text.dropTrailing, List.reverse_cons, List.dropWhile_append]
    split
    · exact ⟨[], rfl⟩
    · exact ⟨_, List.reverse_append⟩
  have stays : Text.dropTrailing '\r' ("typed: ".toList ++ level) =
      "typed:".toList ++ Text.dropTrailing '\r' (' ' :: level) := by
    obtain ⟨rest, eq⟩ := first
    have nonempty : Text.dropTrailing '\r' (' ' :: level) ≠ [] := by simp [eq]
    exact dropTrailing_append nonempty "typed:".toList
  have once : Text.dropCopies "typed:".toList
      ("typed:".toList ++ Text.dropTrailing '\r' (' ' :: level)) =
        Text.dropTrailing '\r' (' ' :: level) := by
    obtain ⟨rest, eq⟩ := first
    rw [Text.dropCopies, dif_pos ⟨by decide, List.prefix_append _ _⟩, List.drop_left, eq,
      Text.dropCopies, dif_neg]
    rintro ⟨-, t, same⟩
    cases same
  rw [stays, once, trim_dropTrailing]
  show Text.trim (' ' :: level) = _
  rw [Text.trim, List.dropWhile_cons_of_pos (by decide), Text.trim]

variable {x : List Char}

theorem reads_strictness?_some {level : String} (line : '\n' ∉ level.toList) :
    Reads strictness? (commentText ("typed: " ++ level) ++ '\n' :: '\n' :: x) x
      (· = some (trimmed level)) := by
  have text : commentText ("typed: " ++ level) ++ '\n' :: '\n' :: x =
      "# typed:".toList ++ (' ' :: (level.toList ++ '\n' :: '\n' :: x)) := by
    rw [commentText, if_neg (by simp [String.isEmpty_iff])]
    simp
  have oneLine : '\n' ∉ ("typed: " ++ level).toList := by simpa using line
  have remark := reads_remark?_line (x := '\n' :: x) oneLine
  refine (reads_look _).followedBy ?_
  rw [if_pos (by rw [text]; exact List.isPrefixOf_iff_prefix.2 (List.prefix_append _ _))]
  refine remark.bind ?_
  rintro _ ⟨r, rfl, same⟩
  refine (reads_eat '\n').followedBy ?_
  refine (reads_look _).followedBy ?_
  refine (reads_skipSpaces_stay (.cons rfl)).followedBy ?_
  have read : r.comment.text.toList = Text.dropTrailing '\r' ("typed: ".toList ++ level.toList) := by
    rw [← String.toList_append]
    exact (congrArg String.toList same).trans String.toList_ofList
  refine (reads_eat '\n').followedBy (reads_pure ?_)
  rw [read, trim_dropCopies]
  rfl

theorem reads_strictness?_none (h : ¬ "# typed:".toList <+: x) : Reads strictness? x x (· = none) := by
  refine (reads_look _).followedBy ?_
  rw [if_neg fun header => h (List.isPrefixOf_iff_prefix.1 header)]
  exact reads_pure rfl

/-- A line on which something begins is not a comment. -/
theorem Begins.stops_sharp {as : List Atom} (h : Begins (lay none as)) (n : Nat) (rest : List Atom) :
    Stops (· = '#') (lay none (as ++ .line n :: rest)) := by
  rw [lay_append_line]
  refine (h.2.1.append h.1).mono fun c same => ?_
  rw [of_decide_eq_true same]
  decide

theorem stops_sharp_sigs (plain : o.colorize = false) {s : Sig} (h : s.Printable) (sigs : List Sig)
    (depth n : Nat) (rest : List Atom) :
    Stops (· = '#') (lay none (Doc.atomsAll n (o.sigDocs depth (s :: sigs)) ++ rest)) := by
  obtain ⟨t, laid, -⟩ := readsDoc_sig plain h depth n
  have atoms : Doc.atomsAll n (o.sigDocs depth (s :: sigs)) ++ rest =
      (s.doc o depth).atoms n ++ .line n :: (Doc.atomsAll n (o.sigDocs depth sigs) ++ rest) := by
    simp [PrintOptions.sigDocs, Doc.atomsAll, Doc.atoms]
  rw [atoms]
  exact Begins.stops_sharp (laid ▸ begins_sig t) n _

/-- A statement without comments does not begin with one. -/
theorem stops_sharp_leaf (plain : o.colorize = false) {node : Node} (h : node.Printable o)
    (leaf : node.isScope = false) (depth n k : Nat) (rest : List Atom) :
    Stops (· = '#')
      (lay none (Doc.atomsAll n (o.leafDocs depth node.decl) ++ .line k :: rest)) := by
  obtain ⟨fits, -⟩ := h
  have one : ∀ doc : Doc, Doc.atomsAll n [doc] = doc.atoms n := fun doc => List.append_nil _
  cases decl : node.decl with
  | scope s => simp [Node.isScope, Node.scope?, decl] at leaf
  | const c =>
    rw [decl] at fits
    rw [PrintOptions.leafDocs, one]
    exact (readsLeaf_constant fits n).1.stops_sharp k rest
  | call c =>
    rw [decl] at fits
    rw [PrintOptions.leafDocs, one]
    refine Begins.stops_sharp ?_ k rest
    rw [Doc.atoms, lay_none_text, lay_nil, List.append_nil]
    exact (readsLeaf_call fits).1
  | method m =>
    rw [decl] at fits
    rw [PrintOptions.leafDocs, Doc.atomsAll_append, one, List.append_assoc]
    cases sigs : m.sigs with
    | nil => exact (readsLeaf_method plain fits n).1.stops_sharp k rest
    | cons s more => exact stops_sharp_sigs plain (fits.2.2 s (sigs ▸ List.mem_cons_self)) more _ _ _
  | attr a =>
    rw [decl] at fits
    rw [PrintOptions.leafDocs, Doc.atomsAll_append, one, List.append_assoc]
    cases sigs : a.sigs with
    | nil => exact (readsLeaf_attribute plain fits n).1.stops_sharp k rest
    | cons s more => exact stops_sharp_sigs plain (fits.2.2 s (sigs ▸ List.mem_cons_self)) more _ _ _
  | blank => exact .cons rfl

/-- A printed comment is a header only if its text says so. -/
theorem header_of_commentText {line : String}
    (h : "# typed:".toList <+: commentText line ++ '\n' :: x) :
    "typed:".toList.isPrefixOf line.toList = true := by
  obtain ⟨t, same⟩ := h
  rw [commentText] at same
  split at same
  · cases same
  · have rest : "typed:".toList ++ t = line.toList ++ '\n' :: x :=
      (List.cons_eq_cons.1 (List.cons_eq_cons.1 same).2).2
    have inLine := congrArg (List.takeWhile fun c => decide (c ≠ '\n')) rest
    rw [List.takeWhile_append_of_pos (List.all_eq_true.1 rfl), Stops.takeWhile_after (.cons rfl)] at inLine
    refine List.isPrefixOf_iff_prefix.2 (List.IsPrefix.trans ⟨_, inLine⟩ ?_)
    exact List.takeWhile_prefix _

/-- The first statement of a file, without comments. -/
theorem stops_sharp_first (plain : o.colorize = false) {node : Node} {body : List Outline} {depth : Nat}
    (h : (Outline.mk node body).printable o depth = true) (silent : commentLines node.comments = [])
    (n k : Nat) (rest : List Atom) : Stops (· = '#')
      (lay none ((o.statementDoc depth (.mk node body)).atoms n ++ .line k :: rest)) := by
  rw [Outline.printable, Bool.and_eq_true, decide_eq_true_eq] at h
  obtain ⟨printable, inside⟩ := h
  have docs : o.commentDocs node.comments = [] := by
    show (commentLines node.comments).flatMap _ = []
    rw [silent, List.flatMap_nil]
  cases isScope : node.isScope with
  | false =>
    rw [statementDoc_leaf isScope, docs, List.nil_append, Doc.atoms]
    exact stops_sharp_leaf plain printable isScope depth n k rest
  | true =>
    obtain ⟨s, scope⟩ := exists_scope isScope
    have fits : s.Printable := by
      have := printable.1
      rwa [scope] at this
    rw [atoms_scope scope fits.kind_ne_root, docs, Doc.atomsAll, List.nil_append, List.append_assoc,
      lay_headerDocs plain]
    refine (begins_header fits _).2.1.mono fun c same => ?_
    rw [of_decide_eq_true same]
    decide

/-- A text of statements begins with the first comment line, if there is one. -/
theorem lay_first_comment (plain : o.colorize = false) {node : Node} {body rest : List Outline}
    {line : String} {more : List String} (lines : commentLines node.comments = line :: more) :
    ∃ x, lay .none (Doc.atomsAll 0 (topDocs o (.mk node body :: rest))) =
      commentText line ++ '\n' :: x := by
  obtain ⟨as, text⟩ : ∃ as, Doc.atomsAll 0 (topDocs o (.mk node body :: rest)) =
      .text (o.commentLine line) :: .line 0 :: as := by
    have docs : o.commentDocs node.comments = (commentLines node.comments).flatMap
        fun line => [.text (o.commentLine line), .line] := rfl
    rw [topDocs, List.flatMap_cons, PrintOptions.statementDoc, docs, lines, List.flatMap_cons]
    exact ⟨_, rfl⟩
  refine ⟨lay (some 0) as, ?_⟩
  rw [text, lay_none_text, lay_line, PrintOptions.toList_commentLine plain]

/-- The text of statements is not read as a header. -/
theorem not_header (plain : o.colorize = false) {body : List Outline}
    (h : Outline.printableAll o 0 body = true) (none : beginsWithHeader body = false) :
    ¬ "# typed:".toList <+: lay .none (Doc.atomsAll 0 (topDocs o body)) := by
  intro header
  cases body with
  | nil =>
    obtain ⟨t, same⟩ := header
    cases same
  | cons first rest =>
    obtain ⟨node, body⟩ := first
    rw [Outline.printableAll, Bool.and_eq_true] at h
    cases lines : commentLines node.comments with
    | nil =>
      have atoms : Doc.atomsAll 0 (topDocs o (.mk node body :: rest)) =
          (o.statementDoc 0 (.mk node body)).atoms 0 ++
            .line 0 :: Doc.atomsAll 0 (topDocs o rest) := by
        simp [topDocs, Doc.atomsAll, Doc.atoms]
      have stop := stops_sharp_first plain h.1 lines 0 0 (Doc.atomsAll 0 (topDocs o rest))
      obtain ⟨t, same⟩ := header
      rw [← atoms, ← same] at stop
      cases Stops.cons_iff.1 stop
    | cons line more =>
      obtain ⟨x, text⟩ := lay_first_comment plain lines
      rw [text] at header
      have found : beginsWithHeader (.mk node body :: rest) = true := by
        show ((commentLines node.comments).head?.any _) = true
        rw [lines]
        exact header_of_commentText header
      rw [found] at none
      cases none

/-! ## Whole files -/

/-- The text of a file is its header, if it has one, and the text of its statements. -/
theorem reads_file (plain : o.colorize = false) (unlocated : o.printLocations = false)
    {body : List Outline} (h : Outline.printableAll o 0 body = true) {strictness : Option String}
    (levels : ∀ level ∈ o.strictness <|> strictness, '\n' ∉ level.toList)
    (header : (o.strictness <|> strictness) = none → beginsWithHeader body = false) :
    Reads file (lay none ((o.fileDoc strictness body).atoms 0)) [] fun t => ∃ new,
      t = .ofOutlines ((o.strictness <|> strictness).map trimmed) new ∧
        Outline.unlocatedAll new = Outline.writtenAll body := by
  have statements : ∀ owed, Reads (fileFrom {}) (lay owed (Doc.atomsAll 0 (topDocs o body))) []
      fun r => Outline.unlocatedAll r = Outline.writtenAll body := by
    intro owed
    refine (reads_topDocs plain body {} owed h rfl rfl rfl).mono ?_
    rintro _ ⟨new, rfl, same⟩
    exact same
  rw [fileDoc_eq unlocated, Doc.atoms, Doc.atomsAll_append]
  cases level : o.strictness <|> strictness with
  | none =>
    have text : lay none (Doc.atomsAll 0 (o.strictnessDocs none) ++ Doc.atomsAll 0 (topDocs o body)) =
        lay none (Doc.atomsAll 0 (topDocs o body)) := rfl
    rw [text]
    refine (reads_strictness?_none (not_header plain h (header level))).followedBy ?_
    exact (statements none).bind fun new same => reads_pure ⟨new, rfl, same⟩
  | some level' =>
    have text : lay none (Doc.atomsAll 0 (o.strictnessDocs (some level')) ++
        Doc.atomsAll 0 (topDocs o body)) = commentText ("typed: " ++ level') ++
          '\n' :: '\n' :: lay (some 0) (Doc.atomsAll 0 (topDocs o body)) := by
      simp [PrintOptions.strictnessDocs, Doc.atomsAll, Doc.atoms,
        PrintOptions.toList_commentLine plain]
    rw [text]
    refine (reads_strictness?_some (levels level' level)).followedBy ?_
    exact (statements (some 0)).bind fun new same => reads_pure ⟨new, rfl, same⟩

end Reader

namespace Tree

variable {t t' : Tree} {o : PrintOptions}

open Reader (trimmed)

/-- The text of a printable tree is accepted. What is read from it is what was written. -/
theorem parse_render (h : t.Printable o) (plain : o.colorize = false)
    (unlocated : o.printLocations = false) (file : Option String) :
    ∃ t', parse (t.render o) file = .ok t' ∧
      Outline.unlocatedAll (t'.outline root).body = Outline.writtenAll (t.outline root).body ∧
        t'.strictness = (o.strictness <|> t.strictness).map trimmed := by
  obtain ⟨printable, levels, header⟩ := h
  have text : (t.render o).toList =
      lay .none ((o.fileDoc t.strictness (t.outline root).body).atoms 0) := Doc.toList_render _
  obtain ⟨t', d, run, -, new, rfl, same⟩ := Reader.reads_file plain unlocated printable levels header
    (Cursor.ofText file (t.render o).toList) text
  refine ⟨.ofOutlines ((o.strictness <|> t.strictness).map trimmed) new, ?_, ?_, rfl⟩
  · rw [parse, Reader.run, run]
    rfl
  · rw [outline_ofOutlines]
    exact same

theorem topDocs_unlocated (body : List Outline) :
    Reader.topDocs o (Outline.unlocatedAll body) = Reader.topDocs o body := by
  induction body with
  | nil => rfl
  | cons first body ih =>
    rw [Outline.unlocatedAll, Reader.topDocs, List.flatMap_cons, statementDoc_unlocated]
    exact congrArg _ ih

theorem topDocs_written {body : List Outline} (h : Outline.printableAll o 0 body = true) :
    Reader.topDocs o (Outline.writtenAll body) = Reader.topDocs o body := by
  induction body with
  | nil => rfl
  | cons first body ih =>
    rw [Outline.printableAll, Bool.and_eq_true] at h
    rw [Outline.writtenAll, Reader.topDocs, List.flatMap_cons, statementDoc_written first 0 0 h.1]
    exact congrArg _ (ih h.2)

/-- What was read back has the same text. -/
theorem render_eq_of_written (h : t.Printable o) (unlocated : o.printLocations = false)
    (body : Outline.unlocatedAll (t'.outline root).body = Outline.writtenAll (t.outline root).body)
    (level : (o.strictness <|> t'.strictness) = (o.strictness <|> t.strictness)) :
    t'.render o = t.render o := by
  rw [render, render, Reader.fileDoc_eq unlocated, Reader.fileDoc_eq unlocated, level,
    ← topDocs_unlocated (t'.outline root).body, body, topDocs_written h.1]

end Tree

/-- The printer and the reader agree. The text of a printable tree, in any uncoloured layout without
    locations, is accepted, and the tree that is read says what was written: the same statements with
    the same names, comments line by line, parameters, signatures in printed order, arguments and
    nesting, and the level of the file without white space around it. Below 2³² bytes that is also what
    is read from the bytes of the text. If there was no white space around the level, then the text of
    that tree is the same text again. -/
theorem printed_tree_is_read_back (o : PrintOptions) (plain : o.colorize = false)
    (unlocated : o.printLocations = false) (t : Tree) (h : t.Printable o) (file : Option String) :
    ∃ t', Tree.parse (t.render o) file = .ok t' ∧
      ((t.render o).utf8ByteSize < 2 ^ 32 → Tree.parseBytes? (t.render o) file = some (.ok t')) ∧
      Outline.unlocatedAll (t'.outline Tree.root).body =
        Outline.writtenAll (t.outline Tree.root).body ∧
      t'.strictness = (o.strictness <|> t.strictness).map Reader.trimmed ∧
      ((∀ level ∈ t.strictness, Reader.trimmed level = level) → t'.render o = t.render o) := by
  obtain ⟨t', read, body, strictness⟩ := Tree.parse_render h plain unlocated file
  refine ⟨t', read, Tree.parseBytes?_of_parse read, body, strictness, fun tidy => ?_⟩
  refine Tree.render_eq_of_written h unlocated body ?_
  rw [strictness]
  cases o.strictness with
  | some level => rfl
  | none =>
    cases level : t.strictness with
    | none => rfl
    | some own => exact congrArg some (tidy own level)

/-- A file with a class, a comment, a signature with a commented parameter and a folded scope. -/
def nestedFile : Tree :=
  .ofOutlines (some "strict")
    [.mk { decl := .scope { kind := .classDef (some "Base[T]"), name := "::A::B" }
           comments := [{ text := "First.\nSecond." }] }
      [.mk { decl := .method
              { name := "call"
                visibility := .priv
                params := [{ name := "a", shape := .optional "[1, \"x)\"]" }]
                sigs := [{ ops := [.void, .params
                  [{ name := "a", type := "T.any(Integer, String)", comments := [{ text := "one" }] }]] }]
              } } [],
       .mk { decl := .scope { kind := .singletonClass, name := singletonName } } [],
       .mk Node.blank []],
     .mk { decl := .call { callee := .other "puts", args := [":a", "b: [1, 2]"] } } []]

theorem printed_tree_is_read_back_nestedFile :
    nestedFile.Printable { foldEmptyScopes := true } ∧
      ∃ t', Tree.parse (nestedFile.render { foldEmptyScopes := true }) none = .ok t' ∧
        Outline.unlocatedAll (t'.outline Tree.root).body =
          Outline.writtenAll (nestedFile.outline Tree.root).body ∧
        t'.strictness = some "strict" := by
  have printable : nestedFile.Printable { foldEmptyScopes := true } := by decide
  obtain ⟨t', read, -, body, strictness, -⟩ :=
    printed_tree_is_read_back { foldEmptyScopes := true } rfl rfl nestedFile printable none
  exact ⟨printable, t', read, body, strictness⟩

end InterfaceFile
