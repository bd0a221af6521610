import InterfaceFile.Proofs.Bytes.LongSources
import InterfaceFile.Proofs.RoundTrip.Stable
import InterfaceFile.Proofs.Spelling.TrackedFile

/-!
# Line ends

A text may end its lines with a carriage return and a newline or with a newline alone. The reader takes
both or neither, and what it reads differs in the carriage returns inside raw texts only.
-/

namespace InterfaceFile

open String (utf8Len utf8Len_append utf8Len_toList)

theorem Cursor.rest_ofText (file : Option String) (text : List Char) : (ofText file text).rest = text :=
  rfl

namespace Reader

variable {m : Respelling} {x x' : List Char}

/-! ## The header of a file -/

/-- Does the text begin with an empty line? -/
def beginsBlank (x : List Char) : Bool :=
  ['\n'].isPrefixOf x || ['\r', '\n'].isPrefixOf x

theorem beginsBlank_eq (h : m.Spells x x') : beginsBlank x' = beginsBlank x := by
  cases h with
  | nil | last | newline => rfl
  | @cons c y y' free rest =>
    by_cases ret : c = '\r'
    · -- There is a carriage return only where none are added.
      cases rest with
      | newline on => exact absurd ret (free on)
      | nil | last | cons => simp [beginsBlank, List.isPrefixOf_cons_cons, -List.isPrefixOf_iff_prefix]
    · have other : ('\r' == c) = false := by simpa using Ne.symm ret
      simp [beginsBlank, List.isPrefixOf_cons_cons, other, -List.isPrefixOf_iff_prefix]

/-- Reads the empty line after the header of a file, if there is one. -/
def emptyLine (level : String) : Reader (Option String) := do
  if ← look beginsBlank then
    skipSpaces
    let _ ← eat '\n'
    return some level
  else return some level

theorem forward_emptyLine (level : String) : Forward (emptyLine level) :=
  (forward_look _).andThen fun _ => .ite
    (forward_skipSpaces.andThen fun _ => (moves_eat _).andThen fun _ => forward_pure _)
    (forward_pure _)

/-- The second text goes on with an empty line, which the header may take. -/
def GoesOnBlank (m : Respelling) : Prop :=
  ∃ z, m.more = some z ∧ beginsBlank z = true

/-- The levels are the same, and so is what comes after the header. -/
def SameHeader (m : Respelling) (l l' : Option String) (y y' : List Char) : Prop :=
  l = l' ∧ m.Follows y y'

theorem tracks_emptyLine (level : String) (h : m.Follows x x') :
    Tracks m (GoesOnBlank m) (emptyLine level) (emptyLine level) x x' (SameHeader m) := by
  rcases h with spells | ⟨rfl, more⟩
  · refine tracks_look (beginsBlank_eq spells)
      (.ite .rfl (fun _ => ?_) fun _ => tracks_pure ⟨rfl, .inl spells⟩)
    exact (tracks_skipSpaces spells).andThen fun _ _ _ _ aligned => (tracks_eat_newline aligned).branch
      (fun _ _ follows => tracks_pure ⟨rfl, follows⟩) (tracks_pure ⟨rfl, .inl aligned.spells⟩)
  · cases blank : beginsBlank x' with
    | true => exact tracks_seam more ((forward_emptyLine level).shuts ⟨x', more, blank⟩)
    | false => exact tracks_look blank (tracks_pure ⟨rfl, .inr ⟨rfl, more⟩⟩)

/-- Headers are read in step. Only if the first text ends with its header, and the second one goes on
    with an empty line, the second run reads more than the first one. -/
theorem tracks_strictness? (h : m.Spells x x') :
    Tracks m (GoesOnBlank m) strictness? strictness? x x' (SameHeader m) := by
  have header := h.drop (w := "# typed:".toList) rfl
  refine tracks_look header.1 (.ite .rfl (fun begins => ?_) fun _ => tracks_pure ⟨rfl, .inl h⟩)
  have aligned : m.Aligned x x' := by
    obtain ⟨_, rfl⟩ := List.isPrefixOf_iff_prefix.1 begins
    obtain ⟨_, rfl⟩ := List.isPrefixOf_iff_prefix.1 (header.1.trans begins)
    exact ⟨h, rfl⟩
  refine (tracks_remark? aligned).option (fun remark remark' y y' words aligned => ?_)
    (tracks_pure ⟨rfl, .inl h⟩)
  have text : remark'.comment.text = remark.comment.text := (congrArg Comment.text words).symm
  dsimp only
  rw [text]
  exact (tracks_eat_newline aligned).branch (fun _ _ follows => tracks_emptyLine _ follows)
    (tracks_emptyLine _ (.inl aligned.spells))

/-- Two texts that are wholes give the same tree, up to carriage returns and locations, or none. -/
theorem tracks_file (whole : m.more = none) (h : m.Spells x x') :
    Tracks m False file file x x' fun t t' _ _ => t.mapNodes Node.unlocated = t'.mapNodes m.said := by
  have nothing : GoesOnBlank m → False := fun ⟨z, more, _⟩ => by
    rw [whole] at more
    cases more
  refine ((tracks_strictness? h).mono nothing fun _ _ _ _ => id).andThen fun level _ y y' header => ?_
  obtain ⟨rfl, follows⟩ := header
  have left : m.Spells y y' := follows.resolve_right fun ended => by
    rw [whole] at ended
    cases ended.2
  refine (tracks_fileFrom whole (Respelling.sameFile_start m []) left).andThen fun os os' _ _ ended =>
    tracks_pure ?_
  obtain ⟨-, new, rfl, same⟩ := ended
  rw [Respelling.SameStatements, ← Outline.mapNodesAll_eq, ← Outline.mapNodesAll_eq] at same
  rw [Tree.mapNodes_ofOutlines rfl, same]
  exact (Tree.mapNodes_ofOutlines (g := m.said) rfl level _).symm

end Reader

namespace Tree

variable {t t' : Tree} {g g' : Node → Node}

theorem slot_mapNodes (blank : g .blank = .blank) (t : Tree) (id : NodeId) :
    (t.mapNodes g).slot id = (t.slot id).mapNode g := by
  have missing : Slot.mapNode g default = default := congrArg (fun node => Slot.mk node none []) blank
  rw [slot, slot, mapNodes, Array.getElem?_map]
  cases t.slots[id]? with
  | none => exact missing.symm
  | some s => rfl

/-- Trees whose nodes have the same images have the same links. -/
theorem links_of_mapNodes_eq (blank : g .blank = .blank) (blank' : g' .blank = .blank)
    (same : t.mapNodes g = t'.mapNodes g') :
    t'.strictness = t.strictness ∧ t'.size = t.size ∧ ∀ id,
      t'.parent id = t.parent id ∧ t'.body id = t.body id ∧ g' (t'.node id) = g (t.node id) := by
  refine ⟨(congrArg Tree.strictness same).symm, ?_, fun id => ?_⟩
  · have sizes := congrArg Tree.size same
    simpa [size, mapNodes] using sizes.symm
  · have slots : (t.mapNodes g).slot id = (t'.mapNodes g').slot id := by rw [same]
    rw [slot_mapNodes blank, slot_mapNodes blank', Slot.mapNode, Slot.mapNode, Slot.mk.injEq] at slots
    exact ⟨slots.2.1.symm, slots.2.2.symm, slots.1.symm⟩

/-- A text without carriage returns and the same text with one before every newline. -/
theorem parse_withReturns {source : String} (plain : '\r' ∉ source.toList) (file : Option String) :
    ((∃ t', parse (Text.withReturns source) file = .ok t') ↔ ∃ t, parse source file = .ok t) ∧
    ∀ t t', parse source file = .ok t → parse (Text.withReturns source) file = .ok t' →
      t'.strictness = t.strictness ∧ t'.size = t.size ∧ ∀ id,
        t'.parent id = t.parent id ∧ t'.body id = t.body id ∧
          ((t'.node id).mapTexts Text.withoutReturns).unlocated = (t.node id).unlocated := by
  have spells : Respelling.Spells { returns := true, more := none } source.toList
      (Text.withReturns source).toList := Respelling.spells_withReturns rfl rfl plain
  have runs := Reader.tracks_file rfl spells (Cursor.ofText file source.toList)
    (Cursor.ofText file (Text.withReturns source).toList) (Cursor.rest_ofText _ _)
    (Cursor.rest_ofText _ _)
  rw [parse, parse, Reader.run, Reader.run]
  generalize Reader.file (Cursor.ofText file source.toList) = o,
    Reader.file (Cursor.ofText file (Text.withReturns source).toList) = o' at runs
  cases runs with
  | ok same =>
    refine ⟨⟨fun _ => ⟨_, rfl⟩, fun _ => ⟨_, rfl⟩⟩, ?_⟩
    rintro _ _ ⟨⟩ ⟨⟩
    exact links_of_mapNodes_eq rfl rfl same
  | error =>
    refine ⟨⟨?_, ?_⟩, ?_⟩
    · rintro ⟨_, ⟨⟩⟩
    · rintro ⟨_, ⟨⟩⟩
    · rintro _ _ ⟨⟩
  | stopped more => cases more
  | lost more => cases more

end Tree

theorem Text.utf8ByteSize_le_withReturns (source : String) :
    source.utf8ByteSize ≤ (withReturns source).utf8ByteSize := by
  rw [← utf8Len_toList, ← utf8Len_toList, withReturns, String.toList_ofList]
  induction source.toList with
  | nil => exact Nat.le_refl _
  | cons c cs ih =>
    have grows : c.utf8Size ≤ utf8Len (if c = '\n' then ['\r', '\n'] else [c]) := by
      split
      · next line =>
        rw [line]
        decide
      · exact Nat.le_of_eq (by simp)
    rw [List.flatMap_cons, utf8Len_append, String.utf8Len_cons, Nat.add_comm]
    exact Nat.add_le_add grows ih

/-- Line ends do not matter. A source without carriage returns is accepted if and only if it is accepted
    with a carriage return before every newline, provided that it is shorter than 2³² bytes with these.
    Then the two trees have the same level, the same links and the same statements, once locations are
    ignored and the carriage returns are deleted from the raw texts of the second one. -/
theorem line_ends_do_not_matter (source : String) (plain : '\r' ∉ source.toList)
    (short : (Text.withReturns source).utf8ByteSize < 2 ^ 32) (file : Option String) :
    ((∃ t', Tree.parseBytes? (Text.withReturns source) file = some (.ok t')) ↔
      ∃ t, Tree.parseBytes? source file = some (.ok t)) ∧
    ∀ t t', Tree.parseBytes? source file = some (.ok t) →
      Tree.parseBytes? (Text.withReturns source) file = some (.ok t') →
      t'.strictness = t.strictness ∧ t'.size = t.size ∧ ∀ id,
        t'.parent id = t.parent id ∧ t'.body id = t.body id ∧
          ((t'.node id).mapTexts Text.withoutReturns).unlocated = (t.node id).unlocated := by
  have short' := Nat.lt_of_le_of_lt (Text.utf8ByteSize_le_withReturns source) short
  simp only [Tree.parseBytes?_eq file short, Tree.parseBytes?_eq file short', Option.some.injEq]
  exact Tree.parse_withReturns plain file

/-- A call whose argument goes over two lines. -/
theorem Tree.parseBytes?_twoLineCall (file : Option String) :
    ∃ t, parseBytes? "foo([1,\n2])\n" file = some (.ok t) ∧ t.strictness = none := by
  have word : IsCallWord "foo".toList := by decide
  have leaf := Reader.readsLeaf_call_paren (a := "[1,\n2]") word (by decide) [] nofun
  have text : "foo([1,\n2])".toList =
      "foo".toList ++ ([] ++ (Call.argsText true ["[1,\n2]"]).toList) := by
    simp [Call.argsText, Text.join_singleton]
  obtain ⟨t, read, bare, -⟩ := parse_callFile (text ▸ leaf) file
  exact ⟨t, (parseBytes?_eq file (by decide)).trans (congrArg some read), bare⟩

theorem line_ends_do_not_matter_callFile :
    ∃ t t', Tree.parseBytes? "foo([1,\n2])\n" none = some (.ok t) ∧
      Tree.parseBytes? (Text.withReturns "foo([1,\n2])\n") none = some (.ok t') ∧
      t'.size = t.size ∧ ∀ id, t'.body id = t.body id ∧
        ((t'.node id).mapTexts Text.withoutReturns).unlocated = (t.node id).unlocated := by
  obtain ⟨t, read, -⟩ := Tree.parseBytes?_twoLineCall none
  obtain ⟨accepted, same⟩ := line_ends_do_not_matter "foo([1,\n2])\n" (by decide) (by decide) none
  obtain ⟨t', read'⟩ := accepted.2 ⟨t, read⟩
  obtain ⟨-, size, links⟩ := same t t' read read'
  exact ⟨t, t', read, read', size, fun id => ⟨(links id).2.1, (links id).2.2⟩⟩

/-! ## A source that is too long with carriage returns -/

/-- Two empty lines and the constant `A`, after some spaces. -/
def gapSource (n : Nat) : String :=
  String.ofList (List.replicate n ' ' ++ ['\n', '\n', 'A'])

section GapSource

variable {n : Nat} {source : String} {run run' : List Char}

theorem utf8ByteSize_gapSource (n : Nat) : (gapSource n).utf8ByteSize = n + 3 := by
  rw [gapSource, ← utf8Len_toList, String.toList_ofList, utf8Len_append, utf8Len_spaces]
  rfl

theorem withReturns_gapSource (n : Nat) : Text.withReturns (gapSource n) =
    String.ofList (List.replicate n ' ' ++ ['\r', '\n', '\r', '\n', 'A']) := by
  rw [Text.withReturns, gapSource, String.toList_ofList, List.flatMap_append]
  congr 2
  induction n with
  | zero => rfl
  | succ n ih =>
    rw [List.replicate_succ, List.flatMap_cons, ih]
    rfl

theorem utf8Len_gap (run run' : List Char) :
    utf8Len (run ++ ['\n'] ++ run' ++ ['\n']) = utf8Len run + utf8Len run' + 2 := by
  have line : utf8Len ['\n'] = 1 := rfl
  simp only [utf8Len_append, line]
  omega

/-- Two empty lines at the start of a source. -/
theorem linesFrom_gap (file : Option String)
    (split : source.toList = run ++ '\n' :: (run' ++ ['\n', 'A']))
    (spaces : ∀ c ∈ run, isLineSpace c = true) (spaces' : ∀ c ∈ run', isLineSpace c = true)
    (near : utf8Len run + utf8Len run' + 1 < 2 ^ 32) : ∃ l l', ∀ n,
      Script.linesFrom source file (n + 4) [] 0 = Script.linesFrom source file (n + 2)
        [blankAt l', blankAt l] (utf8Len (run ++ ['\n'] ++ run' ++ ['\n'])) := by
  have first : source.toList = [] ++ (run ++ '\n' :: (run' ++ ['\n', 'A'])) := split
  have second : source.toList = [] ++ run ++ ['\n'] ++ (run' ++ '\n' :: ['A']) := by simp [split]
  have size : utf8Len ([] ++ run ++ ['\n'] ++ run') = utf8Len run + utf8Len run' + 1 := by
    simp only [List.nil_append, utf8Len_append]
    exact Nat.add_right_comm _ _ _
  have near' : utf8Len ([] ++ run) < 2 ^ 32 := by
    rw [List.nil_append]
    omega
  exact ⟨_, _, fun n => (Script.linesFrom_emptyLine first spaces near').trans
    (Script.linesFrom_emptyLine second spaces' (size ▸ near))⟩

theorem parseBytes?_gapSource (begins : 0 < n) (short : n + 3 < 2 ^ 32) : ∃ l₁ l₂ l₃,
    Tree.parseBytes? (gapSource n) none =
      some (.ok (.ofOutlines none [blankAt l₁, blankAt l₂, constantAt "A" l₃])) := by
  have split : (gapSource n).toList = List.replicate n ' ' ++ '\n' :: ([] ++ ['\n', 'A']) :=
    String.toList_ofList
  have last : (gapSource n).toList =
      List.replicate n ' ' ++ ['\n'] ++ [] ++ ['\n'] ++ ([] ++ ['A']) := by simp [split]
  have size := utf8Len_spaces n
  obtain ⟨l, l', gap⟩ := linesFrom_gap none split isLineSpace_of_mem_spaces nofun
    (by rw [size]; exact Nat.lt_of_succ_lt (Nat.lt_of_succ_lt short))
  have near : utf8Len (List.replicate n ' ' ++ ['\n'] ++ [] ++ ['\n'] ++ []) + 1 < 2 ^ 32 := by
    rw [List.append_nil (_ ++ ['\n']), utf8Len_gap, size]
    exact short
  refine ⟨l, l', _, Tree.parseBytes?_of_lines (k := 4) ?_ (by rw [utf8ByteSize_gapSource]; omega)
    fun m => (gap m).trans (Script.linesFrom_lastA_near last nofun near)⟩
  rw [split]
  exact not_header_of_spaces begins

theorem parseBytes?_gapSource_withReturns (far : n + 4 = 2 ^ 32) : ∃ l₁ l₂ l₃,
    Tree.parseBytes? (Text.withReturns (gapSource n)) none =
      some (.ok (.ofOutlines none [blankAt l₁, blankAt l₂, constantAt " " l₃])) := by
  have text : (Text.withReturns (gapSource n)).toList =
      List.replicate n ' ' ++ ['\r', '\n', '\r', '\n', 'A'] := by
    rw [withReturns_gapSource, String.toList_ofList]
  have split : (Text.withReturns (gapSource n)).toList =
      List.replicate n ' ' ++ ['\r'] ++ '\n' :: (['\r'] ++ ['\n', 'A']) := by simp [text]
  have last : (Text.withReturns (gapSource n)).toList =
      List.replicate n ' ' ++ ['\r'] ++ ['\n'] ++ ['\r'] ++ ['\n'] ++ ([] ++ ['A']) := by simp [text]
  have size : utf8Len (List.replicate n ' ' ++ ['\r']) + utf8Len ['\r'] + 2 = 2 ^ 32 := by
    rw [utf8Len_append, utf8Len_spaces]
    exact far
  have spaces : ∀ c ∈ List.replicate n ' ' ++ ['\r'], isLineSpace c = true := by
    intro c listed
    rcases List.mem_append.1 listed with space | ret
    · exact isLineSpace_of_mem_spaces c space
    · rw [List.mem_singleton.1 ret]
      rfl
  have begins : (Text.withReturns (gapSource n)).toList = [' '] ++
      (List.replicate (n - 1) ' ' ++ ['\r', '\n', '\r', '\n', 'A']) := by
    rw [text, spaces_eq (by omega), List.append_assoc]
  obtain ⟨l, l', gap⟩ := linesFrom_gap none split spaces (List.forall_mem_singleton.2 rfl)
    (by omega)
  have behind : utf8Len (List.replicate n ' ' ++ ['\r'] ++ ['\n'] ++ ['\r'] ++ ['\n'] ++ []) =
      2 ^ 32 := by
    rw [List.append_nil, utf8Len_gap]
    exact size
  have long : 4 ≤ (Text.withReturns (gapSource n)).utf8ByteSize + 1 := by
    have grows := Text.utf8ByteSize_le_withReturns (gapSource n)
    rw [utf8ByteSize_gapSource] at grows
    omega
  refine ⟨l, l', _, Tree.parseBytes?_of_lines (k := 4) ?_ long
    fun m => (gap m).trans (Script.linesFrom_lastA_far last nofun behind begins)⟩
  rw [text]
  exact not_header_of_spaces (by omega)

theorem gapSource_differs (far : n + 4 = 2 ^ 32) :
    '\r' ∉ (gapSource n).toList ∧ (gapSource n).utf8ByteSize < 2 ^ 32 ∧
    ∃ t t', Tree.parseBytes? (gapSource n) none = some (.ok t) ∧
      Tree.parseBytes? (Text.withReturns (gapSource n)) none = some (.ok t') ∧
      ((t'.node 3).mapTexts Text.withoutReturns).unlocated ≠ (t.node 3).unlocated := by
  obtain ⟨l₁, l₂, l₃, read⟩ := parseBytes?_gapSource (n := n) (by omega) (by omega)
  obtain ⟨l₁', l₂', l₃', read'⟩ := parseBytes?_gapSource_withReturns far
  refine ⟨?_, ?_, _, _, read, read', fun same => ?_⟩
  · rw [gapSource, String.toList_ofList]
    simp
  · rw [utf8ByteSize_gapSource]
    omega
  · have names : Declaration.const { name := Text.withoutReturns " " } = .const { name := "A" } :=
      congrArg Node.decl same
    exact absurd names (by decide)

/-- Without the bound line ends matter: with carriage returns `A` stands behind 2³² bytes, and the name of
    the constant is a space. -/
theorem line_ends_matter_behind_4_gib :
    '\r' ∉ (gapSource (2 ^ 32 - 4)).toList ∧ (gapSource (2 ^ 32 - 4)).utf8ByteSize < 2 ^ 32 ∧
    ∃ t t', Tree.parseBytes? (gapSource (2 ^ 32 - 4)) none = some (.ok t) ∧
      Tree.parseBytes? (Text.withReturns (gapSource (2 ^ 32 - 4))) none = some (.ok t') ∧
      ((t'.node 3).mapTexts Text.withoutReturns).unlocated ≠ (t.node 3).unlocated :=
  gapSource_differs rfl

end GapSource

end InterfaceFile
