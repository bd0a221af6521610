import InterfaceFile.Proofs.Reader.AcceptedFile

/-!
# The printed text of a file is stable

A file that is read and printed gives a text. If every text in it fits where it is printed, then that
text is a file again, and printing it changes nothing.
-/

namespace InterfaceFile

/-! ## Files whose text fits -/

theorem Declaration.fits_unlocated (d : Declaration) : d.unlocated.Fits ↔ d.Fits := by
  cases d with
  | method m => exact List.forall_mem_map
  | _ => exact Iff.rfl

mutual

/-- Locations do not matter for what fits. -/
theorem Outline.fits_unlocated : ∀ o : Outline, o.unlocated.fits = o.fits
  | .mk node body => by
    rw [unlocated, fits, fits, fitsAll_unlocatedAll body]
    exact congrArg (· && _) (decide_eq_decide.2 node.decl.fits_unlocated)

theorem Outline.fitsAll_unlocatedAll : ∀ os : List Outline, fitsAll (unlocatedAll os) = fitsAll os
  | [] => rfl
  | o :: os => by rw [unlocatedAll, fitsAll, fitsAll, fits_unlocated o, fitsAll_unlocatedAll os]

end

namespace Tree

theorem topDocs_settled (body : List Outline) :
    Reader.topDocs {} (Outline.settledAll body) = Reader.topDocs {} body := by
  induction body with
  | nil => rfl
  | cons first body ih =>
    rw [Outline.settledAll, Reader.topDocs, List.flatMap_cons, statementDoc_settled]
    exact congrArg _ ih

/-- What is read is the text of a printable tree, if it fits. -/
theorem exists_printable {source : String} {file : Option String} {t : Tree}
    (read : parse source file = .ok t) (fits : t.Fits) :
    ∃ t₀ : Tree, t₀.Printable {} ∧ t₀.render {} = t.render {} ∧
      ∀ level ∈ t₀.strictness, Reader.trimmed level = level := by
  obtain ⟨d, run⟩ := Reader.run_eq_ok.1 read
  obtain ⟨level, body, rfl, tidy, taken⟩ := Reader.gives_file _ t d rfl run
  obtain ⟨inside, header⟩ := fits
  rw [outline_ofOutlines] at inside header
  have first : beginsWithHeader (Outline.settledAll body) = beginsWithHeader body := by
    cases body with
    | nil => rfl
    | cons first rest =>
      obtain ⟨node, inner⟩ := first
      rfl
  refine ⟨.ofOutlines level (Outline.settledAll body), ⟨?_, ?_, ?_⟩, ?_, ?_⟩
  · rw [outline_ofOutlines]
    exact (Outline.nestsAll_of_forall taken).printable inside
  · exact fun l given => (tidy l given).1
  · rw [outline_ofOutlines]
    exact fun none => first.trans (header none)
  · rw [render, render, outline_ofOutlines, outline_ofOutlines, Reader.fileDoc_eq rfl,
      Reader.fileDoc_eq rfl]
    exact congrArg (fun docs => (Doc.concat (_ ++ docs)).render) (topDocs_settled body)
  · exact fun l given => (tidy l given).2

end Tree

/-- The text of a file that has been read is stable if every text in it fits where it is printed: it is
    a file again, and the text of that file is the same text. Below 2³² bytes both files are also what is
    read from the bytes. -/
theorem canonical_text_is_stable (source : String) (file : Option String) (t : Tree)
    (read : Tree.parse source file = .ok t) (fits : t.Fits) :
    (source.utf8ByteSize < 2 ^ 32 → Tree.parseBytes? source file = some (.ok t)) ∧
    ∃ t', Tree.parse (t.render {}) file = .ok t' ∧ t'.render {} = t.render {} ∧
      ((t.render {}).utf8ByteSize < 2 ^ 32 → Tree.parseBytes? (t.render {}) file = some (.ok t')) := by
  refine ⟨Tree.parseBytes?_of_parse read, ?_⟩
  obtain ⟨t₀, printable, same, tidy⟩ := Tree.exists_printable read fits
  obtain ⟨t', read', body, strictness⟩ := Tree.parse_render printable rfl rfl file
  rw [← same]
  refine ⟨t', read', ?_, Tree.parseBytes?_of_parse read'⟩
  refine Tree.render_eq_of_written printable rfl body ?_
  rw [strictness]
  show t₀.strictness.map Reader.trimmed = t₀.strictness
  cases level : t₀.strictness with
  | none => rfl
  | some l => exact congrArg some (tidy l level)

theorem canonical_text_is_stable_nestedFile :
    ∃ t, Tree.parse (nestedFile.render { foldEmptyScopes := true }) none = .ok t ∧ t.Fits ∧
      ∃ t', Tree.parse (t.render {}) none = .ok t' ∧ t'.render {} = t.render {} := by
  have printable : nestedFile.Printable { foldEmptyScopes := true } := by decide
  obtain ⟨t, read, body, strictness⟩ := Tree.parse_render printable rfl rfl none
  have fits : t.Fits := by
    refine ⟨?_, fun none => ?_⟩
    · rw [← Outline.fitsAll_unlocatedAll, body]
      decide
    · rw [strictness] at none
      cases none
  obtain ⟨-, t', read', text, -⟩ := canonical_text_is_stable _ none t read fits
  exact ⟨t, read, fits, t', read', text⟩

/-! ## Text that does not fit -/

namespace Reader

/-- A call with one argument in parentheses, perhaps after spaces. -/
theorem readsLeaf_call_paren {w a : String} (word : IsCallWord w.toList) (clean : Clean (· = ',') a)
    (lead : List Char) (spaces : ∀ c ∈ lead, c = ' ') :
    ReadsLeaf (w.toList ++ (lead ++ (Call.argsText true [a]).toList))
      (.call { callee := .other w, args := [a] }) := by
  obtain ⟨rest, text⟩ : ∃ rest, (Call.argsText true [a]).toList = '(' :: rest :=
    ⟨a.toList ++ [')'], by simp [Call.argsText, Text.join_singleton]⟩
  have skipped : ∀ (p : Char → Bool) (x : List Char), p ' ' = true → p '(' = false →
      (lead ++ (Call.argsText true [a]).toList ++ x).dropWhile p =
        (Call.argsText true [a]).toList ++ x := by
    intro p x space paren
    rw [List.append_assoc, text]
    exact Stops.dropWhile_append (.cons paren) fun c member => by rw [spaces c member, space]
  have stop : ∀ (p : Char → Bool) (x : List Char), p ' ' = false → p '(' = false →
      Stops p (lead ++ (Call.argsText true [a]).toList ++ x) := by
    intro p x space paren
    cases lead with
    | nil => rw [text]; exact .cons paren
    | cons c lead => rw [spaces c List.mem_cons_self]; exact .cons space
  have fit : ArgsFit true [a] := fun b member => List.mem_singleton.1 member ▸ clean
  refine ⟨begins_call word ?_, fun x => ?_⟩
  · have none := stop isWordChar [] rfl rfl
    rwa [List.append_nil] at none
  · rw [List.append_assoc]
    refine reads_statement_call word (stop _ _ rfl rfl) (structField_ofWord?_eq_none ?_ _) ?_
    · rw [skipped _ _ rfl rfl, text]
      exact .cons rfl
    rw [String.ofList_toList]
    refine (reads_eat_no (stop _ _ rfl rfl)).followedBy ?_
    refine (reads_eat_no (stop _ _ rfl rfl)).followedBy ?_
    have alike : (lead ++ (Call.argsText true [a]).toList ++ '\n' :: x).dropWhile isLineSpace =
        ((Call.argsText true [a]).toList ++
          ((Call.blockText none).toList ++ '\n' :: x)).dropWhile isLineSpace := by
      rw [skipped _ _ rfl rfl, text]
      rfl
    have noBlock : ∀ b ∈ (none : Option String), b = "" ∨ Clean (· = '}') b := by simp
    exact Reads.leaf rfl ((reads_callOf fit noBlock alike).followedBy (reads_pure rfl))

/-- A file with one call in it. -/
theorem reads_callFile {s : String} {c : Call} (leaf : ReadsLeaf s.toList (.call c)) :
    Reads file (s.toList ++ ['\n']) [] fun t => ∃ new, t = .ofOutlines none new ∧
      Outline.unlocatedAll new = [.mk { decl := .call c } []] := by
  have laid : lay none [.text s] = s.toList := by rw [lay_none_text, lay_nil, List.append_nil]
  have text : lay none ([.text s] ++ [.line 0]) = s.toList ++ ['\n'] := by
    rw [lay_append_line, laid]
    rfl
  rw [← text]
  have begins := leaf.1
  rw [← laid] at leaf begins
  refine (reads_strictness?_none ?_).followedBy ?_
  · rintro ⟨rest, header⟩
    have sharp := begins.stops_sharp 0 []
    rw [← header] at sharp
    cases Stops.cons_iff.1 sharp
  let node : Node := { decl := .call c }
  have leaf : ReadsLeaf (lay none [.text s]) node.decl.written.unsigned := leaf
  have waits : Waits {} {} (commentLines node.comments) (node.decl.sigs.map Sig.written) :=
    waits_start rfl rfl
  have line := reads_leafLine leaf waits none 0 []
  have statements : Reads (fileFrom {}) (lay none ([.text s] ++ [.line 0])) [] fun new =>
      Outline.unlocatedAll new = [.mk { decl := .call c } []] := by
    refine Reads.again line ?_
    rintro f' ⟨remarks, sigs, scopes, new, statements, same⟩
    refine Reads.done ((reads_lastLine scopes remarks sigs).mono ?_)
    rintro _ ⟨r, rfl, rfl⟩
    refine ⟨_, rfl, ?_⟩
    rw [statements, List.append_nil, List.reverse_reverse]
    exact same
  exact statements.bind fun new same => reads_pure ⟨new, rfl, same⟩

end Reader

theorem Tree.render_callFile (c : Call) :
    (ofOutlines none [.mk { decl := .call c } []]).render {} = c.render {} ++ "\n" := by
  apply String.toList_injective
  rw [render, Doc.toList_render, outline_ofOutlines, Reader.fileDoc_eq rfl, String.toList_append]
  show lay none [.text (c.render {}), .line 0] = _
  rw [lay_none_text]
  rfl

theorem Tree.parse_callFile {s : String} {c : Call} (leaf : Reader.ReadsLeaf s.toList (.call c))
    (file : Option String) :
    ∃ t, parse (s ++ "\n") file = .ok t ∧ t.strictness = none ∧
      t.render {} = c.render {} ++ "\n" := by
  have text : (s ++ "\n").toList = s.toList ++ ['\n'] := String.toList_append
  obtain ⟨_, d, run, -, new, rfl, same⟩ := Reader.reads_callFile leaf
    (Cursor.ofText file (s ++ "\n").toList) text
  refine ⟨.ofOutlines none new, ?_, rfl, ?_⟩
  · rw [parse, Reader.run, run]
    rfl
  · rw [← render_callFile, render, render, outline_ofOutlines, outline_ofOutlines,
      Reader.fileDoc_eq rfl, Reader.fileDoc_eq rfl, ← same]
    exact congrArg (fun docs => (Doc.concat (_ ++ docs)).render) (topDocs_unlocated new).symm

/-- An argument in parentheses of its own loses them: after the called word they are read as the
    parentheses around all arguments. -/
theorem argument_loses_parentheses {w a : String} (word : IsCallWord w.toList)
    (clean : Clean (· = ',') a) (nested : Clean (· = ',') ("(" ++ a ++ ")")) :
    ∃ t t', Tree.parse (w ++ "((" ++ a ++ "))\n") none = .ok t ∧
      Tree.parse (t.render {}) none = .ok t' ∧
        t.render {} = w ++ " (" ++ a ++ ")\n" ∧ t'.render {} = w ++ " " ++ a ++ "\n" := by
  have once := Reader.readsLeaf_call_paren word nested [] nofun
  have again := Reader.readsLeaf_call_paren word clean [' '] fun c member => List.mem_singleton.1 member
  have args : ∀ b, Call.argsText true [b] = "(" ++ b ++ ")" := fun b => by
    simp [Call.argsText, Text.join_singleton]
  have line : ∀ b, Call.render {} { callee := .other w, args := [b] } = w ++ " " ++ b := fun b => by
    simp [Call.render, Call.assignment, Callee.word, Call.argsText, Call.blockText, Call.parenthesized,
      Text.join_singleton, String.append_assoc]
  rw [args, List.nil_append, ← String.toList_append] at once
  rw [args] at again
  obtain ⟨t, read, -, text⟩ := Tree.parse_callFile once none
  obtain ⟨t', read', -, text'⟩ := Tree.parse_callFile (s := w ++ (" " ++ ("(" ++ a ++ ")")))
    (by rw [String.toList_append, String.toList_append]; exact again) none
  rw [line] at text text'
  have source : w ++ ("(" ++ ("(" ++ a ++ ")") ++ ")") ++ "\n" = w ++ "((" ++ a ++ "))\n" := by
    apply String.toList_injective
    simp
  have printed : t.render {} = w ++ (" " ++ ("(" ++ a ++ ")")) ++ "\n" := by
    rw [text]
    simp only [String.append_assoc]
  refine ⟨t, t', source ▸ read, printed ▸ read', ?_, ?_⟩
  · rw [printed]
    apply String.toList_injective
    simp
  · rw [text']

theorem canonical_text_can_change : ∃ t t', Tree.parse "foo((a))\n" none = .ok t ∧
    Tree.parse (t.render {}) none = .ok t' ∧ t'.render {} ≠ t.render {} := by
  have word : IsCallWord "foo".toList := by decide
  obtain ⟨t, t', read, read', text, text'⟩ :=
    argument_loses_parentheses (a := "a") word (by decide) (by decide)
  refine ⟨t, t', read, read', ?_⟩
  rw [text, text']
  decide

end InterfaceFile
