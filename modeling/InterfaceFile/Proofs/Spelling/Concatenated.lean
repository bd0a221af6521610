import InterfaceFile.Proofs.Rewriter.Rewritten
import InterfaceFile.Proofs.Spelling.LineEnds

/-!
# Concatenated sources

A text that ends with a newline may be followed by another text. Nothing that is read in the first text
reaches past its end: the reader comes to the second text with nothing open and nothing waiting, and
reads it as it would read it alone.
-/

namespace InterfaceFile

open String (utf8Len utf8Len_append utf8Len_toList)

namespace Respelling

variable {m : Respelling}

/-- Nothing is undone where nothing was added. -/
theorem said_of_plain (plain : m.returns = false) : m.said = Node.unlocated := by
  have same : m.undo = id := by
    funext s
    simp [undo, plain]
  funext n
  rw [said, same, Node.mapTexts_id, id]

theorem SameStatements.unlocatedAll_eq (plain : m.returns = false) {os os' : List Outline}
    (h : m.SameStatements os os') : Outline.unlocatedAll os = Outline.unlocatedAll os' := by
  rw [Outline.unlocatedAll_eq, Outline.unlocatedAll_eq, Outline.mapNodesAll_eq, Outline.mapNodesAll_eq]
  rwa [SameStatements, said_of_plain plain] at h

end Respelling

namespace Reader

variable {m : Respelling} {f f' : OpenFile} {x x' : List Char}

/-! ## The end of the first text -/

/-- Nothing is open and nothing waits. -/
structure Finished (f : OpenFile) : Prop where
  remarks : f.remarks = []
  sigs : f.sigs = []
  scopes : f.scopes = []

theorem finished_of_dangling (none : f.dangling? = none) (scopes : f.scopes = []) : Finished f := by
  rw [OpenFile.dangling?, Option.orElse_eq_none, OpenFile.danglingSig?, Option.map_eq_none_iff,
    Option.map_eq_none_iff, List.getLast?_eq_none_iff, List.getLast?_eq_none_iff] at none
  exact ⟨none.1, none.2, scopes⟩

/-- Where nothing is open in the first file, nothing is open in the second one. -/
theorem Finished.second (finished : Finished f) (same : m.SameFile [] f f') :
    ∃ os', f' = { statements := os' } ∧ m.SameStatements f.statements os' := by
  obtain ⟨rs, ss, os, scopes⟩ := f
  obtain ⟨rs', ss', os', scopes'⟩ := f'
  obtain ⟨rfl, rfl, rfl⟩ := finished
  obtain ⟨remarks, sigs, nesting⟩ := same
  cases sigs
  obtain rfl : rs' = [] := List.map_eq_nil_iff.1 remarks.symm
  cases nesting with
  | @top _ new statements =>
    exact ⟨new, congrArg (OpenFile.mk [] [] · []) (List.append_nil new), statements⟩

/-- At the end of a text a file ends, if it can. -/
theorem gives_fileStep_end :
    Gives (fileStep f) [] fun t _ => Finished f ∧ t = .done f.statements.reverse := by
  have close : Gives (closeFile f) [] fun t _ => Finished f ∧ t = .done f.statements.reverse := by
    unfold closeFile
    cases dangling : f.dangling? with
    | some e => exact (gives_fail _ _).bind (P := fun _ _ => False) fun _ _ => False.elim
    | none =>
      refine gives_next fun _ _ => ?_
      cases scopes : f.scopes with
      | nil => exact gives_pure ⟨finished_of_dangling dangling scopes, rfl⟩
      | cons s outer => exact gives_fail _ _
  refine (reads_skipSpaces_stay .nil).goesOn.gives (gives_here.bind fun start y same => ?_)
  subst same
  exact (reads_eat_no .nil).goesOn.gives ((reads_remark?_no .nil).goesOn.gives
    ((reads_look _).goesOn.gives close))

/-- If the first file is read to its end, then the second one is read to the same place, and there is
    the second text. -/
theorem fileFrom_reaches {z : List Char} (goesOn : m.more = some z) {base : List Outline}
    (same : m.SameFile base f f') {c c' d : Cursor} (h : m.Follows c.rest c'.rest) {os : List Outline}
    (run : fileFrom f c = .ok (os, d)) :
    ∃ g g' d', m.SameFile base g g' ∧ Finished g ∧ os = g.statements.reverse ∧ d'.rest = z ∧
      fileFrom f' c' = fileFrom g' d' := by
  change loopFrom fileStep moves_fileStep f c = .ok (os, d) at run
  fun_induction loopFrom fileStep moves_fileStep f c generalizing f' c' with
  | case1 => cases run
  | case2 f c b e step =>
    cases run
    rcases h with spells | ⟨nothing, more⟩
    · -- A file ends where its text ends, so the text would be a whole.
      obtain ⟨_, _, -, related⟩ := (tracks_fileStep same spells).second rfl rfl step False.elim
      cases related with
      | done gives =>
        have whole := gives.1
        rw [goesOn] at whole
        cases whole
    · obtain ⟨finished, last⟩ := gives_fileStep_end c _ _ nothing step
      cases last
      rw [goesOn] at more
      exact ⟨f, f', c', same, finished, rfl, (Option.some.inj more).symm, rfl⟩
  | case3 f c t e step ih =>
    rcases h with spells | ⟨nothing, -⟩
    · obtain ⟨_, e', step', related⟩ := (tracks_fileStep same spells).second rfl rfl step False.elim
      cases related with
      | @again _ t' _ _ keeps =>
        obtain ⟨g, g', d', same', finished, last, left, eq⟩ := ih keeps.1 keeps.2 run
        have goes : fileFrom f' c' = fileFrom t' e' := by
          show loopFrom fileStep moves_fileStep f' c' = _
          rw [loopFrom_eq, step']
          rfl
        exact ⟨g, g', d', same', finished, last, left, goes.trans eq⟩
    · cases (gives_fileStep_end c _ e nothing step).2

/-! ## The second text -/

/-- A text is read after other statements as it is read alone. -/
theorem fileFrom_after (base : List Outline) {c e d : Cursor} {os : List Outline}
    (run : fileFrom {} c = .ok (os, e)) (same : d.rest = c.rest) :
    ∃ new e', fileFrom { statements := base } d = .ok (base.reverse ++ new, e') ∧
      Outline.unlocatedAll os = Outline.unlocatedAll new := by
  let alone : Respelling := { returns := false, more := none }
  have files := tracks_fileFrom (m := alone) rfl (Respelling.sameFile_start _ base)
    (Respelling.spells_self rfl rfl c.rest)
  obtain ⟨_, e', second, -, new, rfl, statements⟩ := files.second rfl same run False.elim
  exact ⟨new, e', second, statements.unlocatedAll_eq rfl⟩

/-- A file that begins with a header has a level, so no level means that nothing has been read. -/
theorem gives_strictness?_none : Gives strictness? x fun l y => l = none → y = x := by
  by_cases header : "# typed:".toList <+: x
  · exact (gives_strictness?_ne_none header).mono fun _ _ given none => absurd none given
  · exact (reads_strictness?_none header).gives.mono fun _ _ given _ => given.2

/-! ## The header of the first text -/

/-- The header of the first text is read in front of the second one, unless its empty line would be taken
    from there. -/
theorem strictness?_reaches {c c' d : Cursor} {level : Option String} (h : m.Spells c.rest c'.rest)
    (run : strictness? c = .ok (level, d)) (apart : GoesOnBlank m → d.rest ≠ []) :
    ∃ d', strictness? c' = .ok (level, d') ∧ m.Follows d.rest d'.rest := by
  obtain ⟨_, d', second, rfl, follows⟩ := (tracks_strictness? h).second rfl rfl run apart
  exact ⟨d', second, follows⟩

/-- A file with nothing in it but its header has no statements. -/
theorem fileFrom_nil {c d : Cursor} {os : List Outline} (nothing : c.rest = [])
    (run : fileFrom {} c = .ok (os, d)) : os = [] := by
  change loopFrom fileStep moves_fileStep {} c = .ok (os, d) at run
  rw [loopFrom_eq] at run
  cases step : fileStep {} c with
  | error e =>
    rw [step] at run
    cases run
  | ok s =>
    obtain ⟨t, e⟩ := s
    obtain ⟨-, rfl⟩ := gives_fileStep_end c t e nothing step
    rw [step] at run
    cases run
    rfl

theorem file_eq_ok {c d : Cursor} {t : Tree} : file c = .ok (t, d) ↔
    ∃ level e os, strictness? c = .ok (level, e) ∧ fileFrom {} e = .ok (os, d) ∧
      t = .ofOutlines level os := by
  constructor
  · intro run
    obtain ⟨level, e, header, rest⟩ := bind_eq_ok.1 run
    obtain ⟨os, e', statements, last⟩ := bind_eq_ok.1 rest
    cases last
    exact ⟨level, e, os, header, statements, rfl⟩
  · rintro ⟨level, e, os, header, statements, rfl⟩
    exact bind_eq_ok.2 ⟨level, e, header, bind_eq_ok.2 ⟨os, d, statements, rfl⟩⟩

end Reader

open Reader

/-- Texts of characters that are put one after the other. -/
theorem Tree.parse_append (s₁ s₂ : String) (file₁ file₂ file : Option String) {t₁ t₂ : Tree}
    (ended : s₁.toList.getLast? = some '\n') (read₁ : Tree.parse s₁ file₁ = .ok t₁)
    (read₂ : Tree.parse s₂ file₂ = .ok t₂) (bare : t₂.strictness = none)
    (apart : t₁.strictness = none ∨ t₁.body Tree.root ≠ [] ∨
      ¬ ['\n'] <+: s₂.toList ∧ ¬ ['\r', '\n'] <+: s₂.toList) :
    ∃ t, Tree.parse (s₁ ++ s₂) file = .ok t ∧ t.strictness = t₁.strictness ∧
      Outline.unlocatedAll (t.outline Tree.root).body =
        Outline.unlocatedAll (t₁.outline Tree.root).body ++
          Outline.unlocatedAll (t₂.outline Tree.root).body := by
  let m : Respelling := { returns := false, more := some s₂.toList }
  obtain ⟨_, run₁⟩ := run_eq_ok.1 read₁
  obtain ⟨_, run₂⟩ := run_eq_ok.1 read₂
  obtain ⟨level, d₁, os₁, header₁, statements₁, rfl⟩ := file_eq_ok.1 run₁
  obtain ⟨_, d₂, os₂, header₂, statements₂, rfl⟩ := file_eq_ok.1 run₂
  have nonempty : s₁.toList ≠ [] := fun empty => by
    rw [empty] at ended
    cases ended
  have untaken : GoesOnBlank m → d₁.rest ≠ [] := by
    rintro ⟨z, more, blank⟩ nothing
    cases more
    rcases apart with none | some | ⟨newline, ret⟩
    · have unread := gives_strictness?_none _ _ _ (Cursor.rest_ofText _ _) header₁ none
      exact nonempty (unread ▸ nothing)
    · cases fileFrom_nil nothing statements₁
      exact some rfl
    · rw [beginsBlank, Bool.or_eq_true, List.isPrefixOf_iff_prefix, List.isPrefixOf_iff_prefix] at blank
      exact blank.elim newline ret
  have spells : m.Spells (Cursor.ofText file₁ s₁.toList).rest
      (Cursor.ofText file (s₁ ++ s₂).toList).rest := by
    rw [Cursor.rest_ofText, Cursor.rest_ofText, String.toList_append]
    exact Respelling.spells_append rfl rfl ended
  obtain ⟨d, header, follows⟩ := strictness?_reaches spells header₁ untaken
  obtain ⟨g, g', d', same, finished, rfl, left, goesOn⟩ :=
    fileFrom_reaches rfl (Respelling.sameFile_start m []) follows statements₁
  have alone : d₂.rest = s₂.toList :=
    gives_strictness?_none _ _ _ (Cursor.rest_ofText _ _) header₂ bare
  obtain ⟨os', rfl, statements⟩ := finished.second same
  obtain ⟨new, e', rest, same₂⟩ := fileFrom_after os' statements₂ (left.trans alone.symm)
  have run := file_eq_ok.2 ⟨level, d, _, header, goesOn.trans rest, rfl⟩
  refine ⟨_, run_eq_ok.2 ⟨e', run⟩, rfl, ?_⟩
  rw [Tree.outline_ofOutlines, Tree.outline_ofOutlines, Tree.outline_ofOutlines]
  show Outline.unlocatedAll (os'.reverse ++ new) =
    Outline.unlocatedAll g.statements.reverse ++ Outline.unlocatedAll os₂
  rw [unlocatedAll_append, ← statements.reverse.unlocatedAll_eq rfl, ← same₂]

/-- Sources may be put one after the other if they stay shorter than 2³² bytes. If a source that ends with
    a newline is accepted, and so is a second one without a level, then both together are accepted. They
    have the level of the first source, and the statements of the first one followed by those of the second
    one, locations aside. An empty line at the start of the second source must not be taken for the one after
    the header of the first. -/
theorem concatenated_texts_are_read (s₁ s₂ : String) (file₁ file₂ file : Option String) {t₁ t₂ : Tree}
    (short : (s₁ ++ s₂).utf8ByteSize < 2 ^ 32) (ended : s₁.toList.getLast? = some '\n')
    (read₁ : Tree.parseBytes? s₁ file₁ = some (.ok t₁))
    (read₂ : Tree.parseBytes? s₂ file₂ = some (.ok t₂)) (bare : t₂.strictness = none)
    (apart : t₁.strictness = none ∨ t₁.body Tree.root ≠ [] ∨
      ¬ ['\n'] <+: s₂.toList ∧ ¬ ['\r', '\n'] <+: s₂.toList) :
    ∃ t, Tree.parseBytes? (s₁ ++ s₂) file = some (.ok t) ∧ t.strictness = t₁.strictness ∧
      Outline.unlocatedAll (t.outline Tree.root).body =
        Outline.unlocatedAll (t₁.outline Tree.root).body ++
          Outline.unlocatedAll (t₂.outline Tree.root).body := by
  have size := String.utf8ByteSize_append (s := s₁) (t := s₂)
  rw [Tree.parseBytes?_eq file₁ (by omega)] at read₁
  rw [Tree.parseBytes?_eq file₂ (by omega)] at read₂
  rw [Tree.parseBytes?_eq file short]
  obtain ⟨t, read, same⟩ := Tree.parse_append s₁ s₂ file₁ file₂ file ended (Option.some.inj read₁)
    (Option.some.inj read₂) bare apart
  exact ⟨t, congrArg some read, same⟩

theorem concatenated_texts_are_read_callFile :
    ∃ t₁ t₂ t, Tree.parseBytes? "foo([1,\n2])\n" (some "a") = some (.ok t₁) ∧
      Tree.parseBytes? "foo([1,\n2])\n" (some "b") = some (.ok t₂) ∧
      Tree.parseBytes? ("foo([1,\n2])\n" ++ "foo([1,\n2])\n") none = some (.ok t) ∧
      t.strictness = none ∧
      Outline.unlocatedAll (t.outline Tree.root).body =
        Outline.unlocatedAll (t₁.outline Tree.root).body ++
          Outline.unlocatedAll (t₂.outline Tree.root).body := by
  obtain ⟨t₁, read₁, bare₁⟩ := Tree.parseBytes?_twoLineCall (some "a")
  obtain ⟨t₂, read₂, bare₂⟩ := Tree.parseBytes?_twoLineCall (some "b")
  obtain ⟨t, read, bare, statements⟩ := concatenated_texts_are_read _ _ (some "a") (some "b") none
    (by decide) (by decide) read₁ read₂ bare₂ (.inl bare₁)
  exact ⟨t₁, t₂, t, read₁, read₂, read, bare.trans bare₁, statements⟩

/-! ## Sources that are too long together -/

section Far

variable {n : Nat}

theorem utf8ByteSize_spaceLine (n : Nat) : (spaceLine n).utf8ByteSize = n + 1 := by
  rw [spaceLine, ← utf8Len_toList, String.toList_ofList, utf8Len_append, utf8Len_spaces]
  rfl

theorem parseBytes?_spaceLine (begins : 0 < n) (short : n + 1 < 2 ^ 32) :
    ∃ loc, Tree.parseBytes? (spaceLine n) none = some (.ok (.ofOutlines none [blankAt loc])) := by
  have split : (spaceLine n).toList = [] ++ (List.replicate n ' ' ++ '\n' :: []) := String.toList_ofList
  have pieces : (spaceLine n).toList = [] ++ List.replicate n ' ' ++ ['\n'] ++ [] := by simp [split]
  have size : utf8Len ([] ++ List.replicate n ' ' ++ ['\n']) = (spaceLine n).utf8ByteSize := by
    rw [← utf8Len_toList, pieces, List.append_nil]
  have near : utf8Len ([] ++ List.replicate n ' ') < 2 ^ 32 := by
    rw [List.nil_append, utf8Len_spaces]
    omega
  have ended := lineCol?_of_append pieces
  have same : Bytes.kept (spaceLine n).utf8ByteSize = (spaceLine n).utf8ByteSize :=
    Nat.mod_eq_of_lt (by rw [utf8ByteSize_spaceLine]; exact short)
  rw [size, ← same] at ended
  have last : ∀ m os, Script.linesFrom (spaceLine n) none (m + 1) os
      (utf8Len ([] ++ List.replicate n ' ' ++ ['\n'])) =
        some (.ok (os.reverse, (spaceLine n).utf8ByteSize)) := fun m os => by
    rw [size]
    exact Script.linesFrom_end ended
  refine ⟨_, Tree.parseBytes?_of_lines (k := 2) ?_ (by rw [utf8ByteSize_spaceLine]; omega) fun m =>
    (Script.linesFrom_emptyLine split isLineSpace_of_mem_spaces near).trans (last m _)⟩
  rw [split, List.nil_append]
  exact not_header_of_spaces begins

theorem parseBytes?_indentedA :
    ∃ loc, Tree.parseBytes? " A" none = some (.ok (.ofOutlines none [constantAt "A" loc])) := by
  have split : " A".toList = [] ++ ([' '] ++ ['A']) := rfl
  exact ⟨_, Tree.parseBytes?_of_lines (k := 2) rfl (by decide) fun _ =>
    Script.linesFrom_lastA_near split (List.forall_mem_singleton.2 rfl) (by decide)⟩

theorem parseBytes?_spaceLine_append (far : n + 2 = 2 ^ 32) : ∃ l l',
    Tree.parseBytes? (spaceLine n ++ " A") none =
      some (.ok (.ofOutlines none [blankAt l, constantAt " " l'])) := by
  have split : (spaceLine n ++ " A").toList = [] ++ (List.replicate n ' ' ++ '\n' :: [' ', 'A']) := by
    simp [spaceLine]
  have last : (spaceLine n ++ " A").toList =
      [] ++ List.replicate n ' ' ++ ['\n'] ++ ([' '] ++ ['A']) := by simp [split]
  have behind : utf8Len ([] ++ List.replicate n ' ' ++ ['\n'] ++ [' ']) = 2 ^ 32 := by
    simp only [List.nil_append, utf8Len_append, utf8Len_spaces]
    exact far
  have near : utf8Len ([] ++ List.replicate n ' ') < 2 ^ 32 := by
    rw [List.nil_append, utf8Len_spaces]
    omega
  have begins : (spaceLine n ++ " A").toList =
      [' '] ++ (List.replicate (n - 1) ' ' ++ ['\n', ' ', 'A']) := by
    rw [split, List.nil_append, spaces_eq (by omega), List.append_assoc]
  refine ⟨_, _, Tree.parseBytes?_of_lines (k := 3) ?_ ?_ fun m =>
    (Script.linesFrom_emptyLine split isLineSpace_of_mem_spaces near).trans
      (Script.linesFrom_lastA_far last (List.forall_mem_singleton.2 rfl) behind begins)⟩
  · rw [split, List.nil_append]
    exact not_header_of_spaces (by omega)
  · rw [String.utf8ByteSize_append, utf8ByteSize_spaceLine]
    omega

theorem spaceLine_differs (far : n + 2 = 2 ^ 32) :
    (spaceLine n).utf8ByteSize < 2 ^ 32 ∧ (spaceLine n).toList.getLast? = some '\n' ∧
    ∃ t₁ t₂ t, Tree.parseBytes? (spaceLine n) none = some (.ok t₁) ∧
      Tree.parseBytes? " A" none = some (.ok t₂) ∧ t₁.strictness = none ∧ t₂.strictness = none ∧
      Tree.parseBytes? (spaceLine n ++ " A") none = some (.ok t) ∧
      Outline.unlocatedAll (t.outline Tree.root).body ≠
        Outline.unlocatedAll (t₁.outline Tree.root).body ++
          Outline.unlocatedAll (t₂.outline Tree.root).body := by
  obtain ⟨l₁, read₁⟩ := parseBytes?_spaceLine (n := n) (by omega) (by omega)
  obtain ⟨l₂, read₂⟩ := parseBytes?_indentedA
  obtain ⟨l, l', read⟩ := parseBytes?_spaceLine_append far
  refine ⟨?_, ?_, _, _, _, read₁, read₂, rfl, rfl, read, fun same => ?_⟩
  · rw [utf8ByteSize_spaceLine]
    omega
  · rw [spaceLine, String.toList_ofList, List.getLast?_concat]
  · rw [Tree.outline_ofOutlines, Tree.outline_ofOutlines, Tree.outline_ofOutlines] at same
    have names : [Declaration.blank, .const { name := " " }] = [.blank, .const { name := "A" }] :=
      congrArg (List.map fun o : Outline => o.node.decl) same
    exact absurd names (by decide)

/-- Without the bound the second source may be read differently: behind the first one `A` stands behind 2³²
    bytes, and the name of the constant is a space. -/
theorem concatenated_texts_differ_behind_4_gib :
    (spaceLine (2 ^ 32 - 2)).utf8ByteSize < 2 ^ 32 ∧
    (spaceLine (2 ^ 32 - 2)).toList.getLast? = some '\n' ∧
    ∃ t₁ t₂ t, Tree.parseBytes? (spaceLine (2 ^ 32 - 2)) none = some (.ok t₁) ∧
      Tree.parseBytes? " A" none = some (.ok t₂) ∧ t₁.strictness = none ∧ t₂.strictness = none ∧
      Tree.parseBytes? (spaceLine (2 ^ 32 - 2) ++ " A") none = some (.ok t) ∧
      Outline.unlocatedAll (t.outline Tree.root).body ≠
        Outline.unlocatedAll (t₁.outline Tree.root).body ++
          Outline.unlocatedAll (t₂.outline Tree.root).body :=
  spaceLine_differs rfl

end Far

end InterfaceFile
