import InterfaceFile.Proofs.Printer.Indented
import InterfaceFile.Proofs.RoundTrip.Settled
import InterfaceFile.Proofs.Tree.LaidTrees

/-!
# Texts put together from the texts of statements

Each statement begins on a line of its own, and the columns before it depend only on how deep it
stands. So a file is printed as the texts of its statements one after the other, and a scope as the
texts of its statements, moved to the right, between its header and its `end`.
-/

namespace InterfaceFile

open Text (Lacks)
open Doc (FlatAll)

variable {o : PrintOptions}

/-! ## Printed statements have no line ends in their texts -/

theorem lacks_paint {style : Style} (code : Lacks '\n' style.code) {s : String} (lacks : Lacks '\n' s) :
    Lacks '\n' (o.paint style s) := by
  rw [PrintOptions.paint, Style.paint]
  split
  · exact Text.lacks_append.2 ⟨Text.lacks_append.2 ⟨code, lacks⟩, by decide⟩
  · exact lacks

theorem lacks_keyword {word : String} (lacks : Lacks '\n' word) : Lacks '\n' (o.keyword word) :=
  lacks_paint (by decide) lacks

theorem lacks_name {name : String} (lacks : Lacks '\n' name) : Lacks '\n' (o.paint .name name) :=
  lacks_paint (by decide) lacks

theorem lacks_commentLine {line : String} (lacks : Lacks '\n' line) :
    Lacks '\n' (o.commentLine line) := by
  refine lacks_paint (by decide) ?_
  split
  · decide
  · exact Text.lacks_append.2 ⟨by decide, lacks⟩

/-- Comments are cut at their line ends. -/
theorem lacks_commentLines {comments : List Comment} :
    ∀ line ∈ comments.flatMap Comment.lines, Lacks '\n' line := by
  intro line listed
  obtain ⟨c, -, inside⟩ := List.mem_flatMap.1 listed
  obtain ⟨piece, cut, rfl⟩ := List.mem_map.1 inside
  rw [Lacks, String.toList_ofList]
  exact Text.not_mem_of_mem_split cut

theorem flat_commentDocs (comments : List Comment) : FlatAll (o.commentDocs comments) := by
  refine Doc.flatAll_flatMap.2 fun line listed => ?_
  simpa using lacks_commentLine (lacks_commentLines line listed)

theorem flat_trailingDocs (column : Nat) {lines : List String} (lacks : ∀ s ∈ lines, Lacks '\n' s) :
    FlatAll (o.trailingDocs column lines) := by
  cases lines with
  | nil => trivial
  | cons first rest =>
    obtain ⟨head, tail⟩ := List.forall_mem_cons.1 lacks
    have spaces : Lacks '\n' (Text.spaces column) := by simp [Lacks, Text.spaces]
    refine ⟨(by decide : Lacks '\n' " "), lacks_commentLine head, Doc.flatAll_flatMap.2 fun line listed => ?_⟩
    exact ⟨trivial, spaces, lacks_commentLine (tail line listed), trivial⟩

theorem flat_entryDocs {text : String} (comments : List Comment) (lacks : Lacks '\n' text) :
    FlatAll (o.entryDocs text comments) :=
  ⟨trivial, lacks, flat_trailingDocs _ lacks_commentLines⟩

theorem flat_entriesDocs : ∀ {entries : List (String × List Comment)},
    (∀ e ∈ entries, Lacks '\n' e.1) → FlatAll (o.entriesDocs entries)
  | [], _ => trivial
  | [e], lacks => flat_entryDocs _ (lacks e List.mem_cons_self)
  | e :: e' :: rest, lacks => by
    obtain ⟨head, tail⟩ := List.forall_mem_cons.1 lacks
    exact Doc.flatAll_append.2 ⟨flat_entryDocs _ (Text.lacks_append.2 ⟨head, by decide⟩),
      flat_entriesDocs tail⟩

/-- A list of entries on lines of their own between two texts. -/
theorem flat_listed {α : Type} (render : α → String) (comments : α → List Comment) {as : List α}
    (lacks : ∀ a ∈ as, Lacks '\n' (render a)) {opening closing : String} (first : Lacks '\n' opening)
    (last : Lacks '\n' closing) :
    FlatAll [.text opening,
      .nest o.indentWidth (.concat (o.entriesDocs (as.map fun a => (render a, comments a)))),
      .line, .text closing] := by
  have entries : ∀ e ∈ as.map fun a => (render a, comments a), Lacks '\n' e.1 := by
    intro e listed
    obtain ⟨a, member, rfl⟩ := List.mem_map.1 listed
    exact lacks a member
  exact ⟨first, flat_entriesDocs entries, trivial, last, trivial⟩

namespace Sig

variable {s : Sig}

/-- The comments of parameters have no part in the texts on one line. -/
theorem lacks_parts (lacks : ∀ x ∈ s.stripped.texts, Lacks '\n' x) :
    Lacks '\n' s.chainText ∧ (∀ x ∈ s.typeParametersText?, Lacks '\n' x) ∧
      (∀ x ∈ s.trailerText?, Lacks '\n' x) ∧
      ∀ entries, s.allParams? = some entries → ∀ p ∈ entries, Lacks '\n' p.render := by
  have types : s.stripped.typeParametersText? = s.typeParametersText? := by
    rw [typeParametersText?, typeParametersText?, stripped, flatMap_typeNames_map]
  have trailer : s.stripped.trailerText? = s.trailerText? := trailerText?_map s
  refine ⟨?_, ?_, ?_, fun entries given p listed => ?_⟩
  · rw [chainText, ← chainTexts_stripped]
    exact lacks_chainText (by decide) lacks
  · exact types ▸ lacks_typeParametersText (by decide) lacks
  · exact trailer ▸ lacks_trailerText (by decide) lacks
  · have params : s.stripped.allParams? = some (entries.map SigParam.stripped) := by
      rw [stripped, allParams?_map, given]
      rfl
    exact SigParam.lacks_render (p := p.stripped) (by decide)
      (lacks_of_mem_allParams lacks params _ (List.mem_map_of_mem listed))

theorem flat_blockBody (lacks : ∀ x ∈ s.stripped.texts, Lacks '\n' x) : (s.blockBody o).Flat := by
  obtain ⟨chain, types, trailer, params⟩ := lacks_parts lacks
  rw [blockBody]
  cases given : s.allParams? with
  | none => exact chain
  | some entries =>
    refine flat_listed SigParam.render SigParam.comments (params entries given) ?_ ?_
    · cases before : s.typeParametersText? with
      | none => exact (by decide : Lacks '\n' "params(")
      | some text => exact Text.lacks_append.2 ⟨types text before, by decide⟩
    · cases after : s.trailerText? with
      | none => exact (by decide : Lacks '\n' ")")
      | some text => exact Text.lacks_append.2 ⟨by decide, trailer text after⟩

theorem flat_doc (lacks : ∀ x ∈ s.stripped.texts, Lacks '\n' x) (depth : Nat) :
    (s.doc o depth).Flat := by
  have word : Lacks '\n' (o.paint .sig "sig") := lacks_paint (by decide) (by decide)
  have opens : Lacks '\n' (o.keyword "do") := lacks_keyword (by decide)
  have ends : Lacks '\n' (o.keyword "end") := lacks_keyword (by decide)
  have space : Lacks '\n' " " := by decide
  rw [doc]
  split
  · split
    · exact ⟨word, space, opens, trivial, ends, trivial⟩
    · exact ⟨word, (by decide : Lacks '\n' " \x7b\x7d"), trivial⟩
  · split
    · exact ⟨word, (by decide : Lacks '\n' " \x7b "), (lacks_parts lacks).1,
        (by decide : Lacks '\n' " \x7d"), trivial⟩
    · exact ⟨word, space, opens, ⟨trivial, flat_blockBody lacks, trivial⟩, trivial, ends, trivial⟩

end Sig

theorem flat_emptyEnd : FlatAll o.emptyEnd := by
  have ends : Lacks '\n' (o.keyword "end") := lacks_keyword (by decide)
  rw [PrintOptions.emptyEnd]
  split
  · exact ⟨trivial, ends, trivial⟩
  · exact ⟨(by decide : Lacks '\n' "; "), ends, trivial⟩

theorem flat_visibilityDoc (level : Visibility) : (o.visibilityDoc level).Flat := by
  have prefixed : ∀ word, Lacks '\n' word → (Doc.concat [.text (o.keyword word), .text " "]).Flat :=
    fun word lacks => ⟨lacks_keyword lacks, (by decide : Lacks '\n' " "), trivial⟩
  cases level with
  | pub => trivial
  | prot => exact prefixed _ (by decide)
  | priv => exact prefixed _ (by decide)

theorem flat_paramsDocs {params : List Param} (lacks : ∀ p ∈ params, Lacks '\n' p.render) :
    FlatAll (o.paramsDocs params) := by
  rw [PrintOptions.paramsDocs]
  split
  · trivial
  · split
    · refine ⟨Text.lacks_append.2 ⟨Text.lacks_append.2 ⟨by decide, ?_⟩, by decide⟩, trivial⟩
      refine Text.lacks_join (by decide) fun s listed => ?_
      obtain ⟨p, member, rfl⟩ := List.mem_map.1 listed
      exact lacks p member
    · exact flat_listed Param.render Param.comments lacks (by decide) (by decide)

theorem flat_methodDoc {m : Method} (name : Lacks '\n' m.name)
    (params : ∀ p ∈ m.params, Lacks '\n' p.render) : (o.methodDoc m).Flat := by
  have word : Lacks '\n' (o.keyword "def") := lacks_keyword (by decide)
  have space : Lacks '\n' " " := by decide
  have self : FlatAll (if m.singleton then [.text "self."] else []) := by
    split
    · exact ⟨(by decide : Lacks '\n' "self."), trivial⟩
    · trivial
  have front : FlatAll [o.visibilityDoc m.visibility, .text (o.keyword "def"), .text " "] :=
    ⟨flat_visibilityDoc _, word, space, trivial⟩
  simp only [PrintOptions.methodDoc, Doc.Flat, Doc.flatAll_append]
  exact ⟨⟨⟨⟨front, self⟩, lacks_name name, trivial⟩, flat_paramsDocs params⟩, flat_emptyEnd⟩

theorem flat_attributeDoc {a : Attribute} (lacks : ∀ s ∈ a.names, Lacks '\n' s) :
    (o.attributeDoc a).Flat := by
  have word : Lacks '\n' a.access.keyword := by cases a.access <;> decide
  have comma : (Doc.text ", ").Flat := (by decide : Lacks '\n' ", ")
  have names : FlatAll ((a.names.map fun name => Doc.text (":" ++ name)).intersperse (.text ", ")) := by
    refine Doc.flatAll_intersperse comma (Doc.flatAll_iff.2 fun d listed => ?_)
    obtain ⟨name, member, rfl⟩ := List.mem_map.1 listed
    exact Text.lacks_append.2 ⟨by decide, lacks name member⟩
  exact ⟨flat_visibilityDoc _, lacks_keyword word, (by decide : Lacks '\n' " "), names, trivial⟩

theorem flat_sigDocs (depth : Nat) {sigs : List Sig}
    (lacks : ∀ s ∈ sigs, ∀ x ∈ s.stripped.texts, Lacks '\n' x) : FlatAll (o.sigDocs depth sigs) :=
  Doc.flatAll_flatMap.2 fun s listed => ⟨Sig.flat_doc (lacks s listed) depth, trivial, trivial⟩

theorem flat_headerDocs {s : Scope} (lacks : ∀ x ∈ (Declaration.scope s).texts, Lacks '\n' x) :
    FlatAll (o.headerDocs s) := by
  have name : Lacks '\n' (o.paint .name s.name) := lacks_name (lacks _ (by simp [Declaration.texts]))
  have space : Lacks '\n' " " := by decide
  rw [PrintOptions.headerDocs]
  cases kind : s.kind with
  | root => trivial
  | moduleDef => exact ⟨lacks_keyword (by decide), space, name, trivial⟩
  | classDef superclass =>
    refine Doc.flatAll_append.2 ⟨⟨lacks_keyword (by decide), space, name, trivial⟩, ?_⟩
    cases superclass with
    | none => trivial
    | some superclass =>
      have inside : Lacks '\n' superclass := lacks _ (by simp [Declaration.texts, kind])
      exact ⟨(by decide : Lacks '\n' " < "), inside, trivial⟩
  | singletonClass =>
    exact ⟨lacks_keyword (by decide), (by decide : Lacks '\n' " << self"), trivial⟩

/-- Only the names and raw texts of a node can bring line ends into its lines. -/
theorem flat_leafDocs (depth : Nat) {n : Node} (lacks : ∀ x ∈ n.stripped.texts, Lacks '\n' x) :
    FlatAll (o.leafDocs depth n.decl) := by
  obtain ⟨decl, comments, loc⟩ := n
  have declared : ∀ x ∈ (Node.stripped { decl, comments, loc }).decl.texts, Lacks '\n' x :=
    fun x listed => lacks x (List.mem_append_left _ (List.mem_append_left _ listed))
  cases decl with
  | scope s => exact flat_headerDocs declared
  | const c =>
    have name : Lacks '\n' c.name := declared _ (by simp [Node.stripped, Declaration.texts])
    show FlatAll [PrintOptions.constantDoc c]
    rw [PrintOptions.constantDoc]
    cases value : c.value with
    | none => exact ⟨name, trivial⟩
    | some text =>
      have inside : Lacks '\n' text :=
        declared _ (by simp [Node.stripped, Declaration.texts, value])
      exact ⟨⟨name, (by decide : Lacks '\n' " = "), inside, trivial⟩, trivial⟩
  | method m =>
    refine Doc.flatAll_append.2 ⟨flat_sigDocs depth fun s listed x member => declared x ?_,
      flat_methodDoc (declared _ (by simp [Node.stripped, Declaration.texts, Method.stripped])) ?_,
      trivial⟩
    · exact List.mem_append_right _ (List.mem_flatMap.2 ⟨_, List.mem_map_of_mem listed, member⟩)
    · intro p listed
      refine Param.lacks_render (p := p.stripped) (by decide) fun x member => declared x ?_
      exact List.mem_append_left _ (List.mem_cons_of_mem _
        (List.mem_flatMap.2 ⟨_, List.mem_map_of_mem listed, member⟩))
  | attr a =>
    refine Doc.flatAll_append.2 ⟨flat_sigDocs depth fun s listed x member => declared x ?_,
      flat_attributeDoc fun x listed => declared x (List.mem_append_left _ listed), trivial⟩
    exact List.mem_append_right _ (List.mem_flatMap.2 ⟨_, List.mem_map_of_mem listed, member⟩)
  | call c => exact ⟨Call.lacks_render (by decide) declared, trivial⟩
  | blank => trivial

/-! ## Statements at any depth -/

theorem bodyDocs_eq (depth : Nat) (body : List Outline) : o.bodyDocs depth body =
    body.flatMap fun statement => [.line, o.statementDoc depth statement] := by
  induction body with
  | nil => rw [PrintOptions.bodyDocs, List.flatMap_nil]
  | cons statement rest ih => rw [PrintOptions.bodyDocs, ih, List.flatMap_cons]; rfl

mutual

/-- Without a limit for lines nothing depends on the depth. -/
theorem statementDoc_depth (unlimited : o.maxLineLength = none) (depth : Nat) :
    ∀ statement : Outline, o.statementDoc depth statement = o.statementDoc 0 statement
  | .mk node body => by
    have leaves : ∀ d, o.leafDocs depth d = o.leafDocs 0 d := by
      have sigs : ∀ s : Sig, s.doc o depth = s.doc o 0 := by
        intro s
        simp only [Sig.doc, Sig.onOneLine, unlimited]
      intro d
      cases d <;> simp only [PrintOptions.leafDocs, PrintOptions.sigDocs, sigs]
    rw [PrintOptions.statementDoc, PrintOptions.statementDoc, bodyDocs_depth unlimited depth,
      bodyDocs_depth unlimited (depth + 1), bodyDocs_depth unlimited (0 + 1)]
    simp only [leaves]

theorem bodyDocs_depth (unlimited : o.maxLineLength = none) (depth : Nat) :
    ∀ body : List Outline, o.bodyDocs depth body = o.bodyDocs 0 body
  | [] => rfl
  | statement :: rest => by
    rw [PrintOptions.bodyDocs, PrintOptions.bodyDocs, statementDoc_depth unlimited depth statement,
      bodyDocs_depth unlimited depth rest]

end

namespace Tree

variable {t : Tree}

theorem Linked.flat_statementDoc (h : t.Linked) {id : NodeId}
    (lacks : ∀ i, id ∈ t.lineage i → ∀ x ∈ (t.node i).stripped.texts, Lacks '\n' x) (depth : Nat) :
    (o.statementDoc depth (t.outline id)).Flat := by
  induction id using h.descent.induction generalizing depth with
  | _ id ih =>
    have own := lacks id (h.mem_lineage_self id)
    have bodies : ∀ depth, FlatAll (o.bodyDocs depth ((t.body id).map t.outline)) := by
      intro depth
      rw [bodyDocs_eq, List.flatMap_map]
      refine Doc.flatAll_flatMap.2 fun child listed => ⟨trivial, ih child listed ?_ depth, trivial⟩
      intro i inside
      exact lacks i (h.parent_mem_lineage inside ((h.parent_iff child id).2 listed))
    have comments := flat_commentDocs (o := o) (t.node id).comments
    rw [h.outline_eq]
    cases isScope : (t.node id).isScope with
    | false =>
      rw [Reader.statementDoc_leaf isScope]
      exact Doc.flatAll_append.2 ⟨comments, flat_leafDocs depth own⟩
    | true =>
      obtain ⟨s, scope⟩ := Reader.exists_scope isScope
      by_cases file : s.kind = .root
      · rw [Reader.statementDoc_file scope file]
        refine Doc.flatAll_append.2 ⟨comments, Doc.flatAll_iff.2 fun d listed => ?_⟩
        exact Doc.flatAll_iff.1 (bodies depth) d (List.mem_of_mem_tail listed)
      · have header : FlatAll (o.headerDocs s) := by
          have leaf := flat_leafDocs (o := o) depth own
          rwa [scope] at leaf
        rw [Reader.statementDoc_scope scope file]
        refine Doc.flatAll_append.2 ⟨comments, ?_⟩
        split
        · exact Doc.flatAll_append.2 ⟨header, flat_emptyEnd⟩
        · exact Doc.flatAll_append.2
            ⟨header, bodies (depth + 1), trivial, lacks_keyword (by decide), trivial⟩

end Tree

/-! ## The text of a whole -/

namespace PrintOptions

/-- The header line of a scope. -/
def headerText (o : PrintOptions) (s : Scope) : String :=
  match s.kind with
  | .root => ""
  | .moduleDef => o.keyword "module" ++ " " ++ o.paint .name s.name
  | .classDef none => o.keyword "class" ++ " " ++ o.paint .name s.name
  | .classDef (some superclass) =>
    o.keyword "class" ++ " " ++ o.paint .name s.name ++ " < " ++ superclass
  | .singletonClass => o.keyword "class" ++ " << self"

/-- The line with the level of a file and the empty line after it. -/
def strictnessText (o : PrintOptions) : Option String → String
  | some level => o.paint .comment ("# typed: " ++ level) ++ "\n\n"
  | none => ""

end PrintOptions

theorem lay_headerDocs (s : Scope) (n : Nat) (as : List Atom) :
    lay none (Doc.atomsAll n (o.headerDocs s) ++ as) = (o.headerText s).toList ++ lay none as := by
  rw [PrintOptions.headerDocs, PrintOptions.headerText]
  obtain ⟨kind, name⟩ := s
  cases kind with
  | classDef superclass => cases superclass <;> simp [Doc.atomsAll, Doc.atoms]
  | _ => simp [Doc.atomsAll, Doc.atoms]

theorem lay_commentDocs (comments : List Comment) (as : List Atom) :
    lay none (Doc.atomsAll 0 (o.commentDocs comments) ++ as) =
      ((comments.flatMap Comment.lines).flatMap fun line => (o.commentLine line).toList ++ ['\n']) ++
        lay none as := by
  rw [PrintOptions.commentDocs]
  induction comments.flatMap Comment.lines with
  | nil => rfl
  | cons line rest ih =>
    rw [List.flatMap_cons, Doc.atomsAll_append, List.append_assoc]
    simp only [Doc.atomsAll, Doc.atoms, List.append_nil, List.cons_append,
      lay_none_text, lay_line, lay_some_zero, ih, List.flatMap_cons, List.append_assoc,
      List.nil_append]

theorem lay_strictnessDocs (level : Option String) (as : List Atom) :
    lay none (Doc.atomsAll 0 (o.strictnessDocs level) ++ as) =
      (o.strictnessText level).toList ++ lay none as := by
  cases level with
  | none => rfl
  | some level =>
    have line : o.commentLine ("typed: " ++ level) = o.paint .comment ("# typed: " ++ level) := by
      rw [PrintOptions.commentLine, if_neg (by simp [String.isEmpty_iff]), ← String.append_assoc]
      rfl
    simp [PrintOptions.strictnessDocs, PrintOptions.strictnessText, Doc.atomsAll, Doc.atoms, line]

/-- Statements at the top of a file. -/
theorem lay_topDocs (body : List Outline) :
    lay none (Doc.atomsAll 0 (Reader.topDocs o body)) =
      body.flatMap fun statement => (o.statementDoc 0 statement).render.toList ++ ['\n'] := by
  induction body with
  | nil => rfl
  | cons statement rest ih =>
    have atoms : Doc.atomsAll 0 (Reader.topDocs o (statement :: rest)) =
        (o.statementDoc 0 statement).atoms 0 ++ .line 0 :: Doc.atomsAll 0 (Reader.topDocs o rest) := by
      simp [Reader.topDocs, Doc.atomsAll, Doc.atoms]
    rw [atoms, lay_append_line, lay_some_zero, ih, ← Doc.toList_render, List.flatMap_cons,
      List.append_assoc]
    rfl

/-- The statements of a scope, up to the line break after them. -/
theorem lay_bodyDocs (unlimited : o.maxLineLength = none) {body : List Outline}
    (flat : ∀ statement ∈ body, (o.statementDoc 0 statement).Flat) (depth n k : Nat)
    (rest : List Atom) (owed : Option Nat) :
    lay owed (Doc.atomsAll n (o.bodyDocs depth body) ++ .line k :: rest) =
      (body.flatMap fun statement =>
        '\n' :: (Text.indent n (o.statementDoc 0 statement).render).toList) ++
        '\n' :: lay (some k) rest := by
  induction body generalizing owed with
  | nil => exact lay_line owed k rest
  | cons statement body ih =>
    obtain ⟨here, later⟩ := List.forall_mem_cons.1 flat
    -- What comes after the statement begins with a line break.
    obtain ⟨m, as, begins⟩ : ∃ m as,
        Doc.atomsAll n (o.bodyDocs depth body) ++ .line k :: rest = .line m :: as := by
      cases body with
      | nil => exact ⟨k, rest, rfl⟩
      | cons first others => exact ⟨n, _, rfl⟩
    have after := ih later none
    rw [begins, lay_line] at after
    rw [PrintOptions.bodyDocs, statementDoc_depth unlimited, Doc.atomsAll, Doc.atomsAll,
      List.append_assoc, List.append_assoc, begins, Doc.atoms, List.singleton_append, lay_line,
      lay_append_line, Doc.lay_atoms here, after, List.flatMap_cons, List.append_assoc]
    rfl

/-- A file is its header and the texts of its statements, each with a line break. A scope with a body
    is its comment lines and its header, the texts of its statements moved to the right, and its end,
    each on a line of its own. -/
theorem printing_is_compositional {t : Tree} (h : t.Linked) (o : PrintOptions) :
    (o.printLocations = false → t.render o = o.strictnessText (o.strictness <|> t.strictness) ++
      String.join ((t.body Tree.root).map fun id => t.renderNode id o ++ "\n")) ∧
    ∀ id s, (t.node id).scope? = some s → s.kind ≠ .root → t.body id ≠ [] →
      o.maxLineLength = none →
      (∀ i, id ∈ t.lineage i → ∀ x ∈ (t.node i).stripped.texts, '\n' ∉ x.toList) →
      t.renderNode id o = Text.join "\n"
        (((t.node id).comments.flatMap Comment.lines).map o.commentLine ++
          o.headerText s ::
          ((t.body id).map fun child => Text.indent o.indentWidth (t.renderNode child o)) ++
          [o.keyword "end"]) := by
  refine ⟨fun unlocated => ?_, fun id s opens headed nonempty unlimited lacks => ?_⟩
  · have statements : (t.outline Tree.root).body = (t.body Tree.root).map t.outline := by
      rw [h.outline_eq]
      rfl
    apply String.toList_injective
    rw [Tree.render, Reader.fileDoc_eq unlocated, Doc.toList_render, Doc.atoms, Doc.atomsAll_append,
      lay_strictnessDocs, lay_topDocs, statements, String.toList_append, String.toList_join,
      List.flatMap_map, List.flatMap_map]
    simp [Tree.renderNode]
  · have scope : (t.node id).decl = .scope s := by
      cases decl : (t.node id).decl <;> simp_all [Node.scope?]
    have flat : ∀ statement ∈ (t.body id).map t.outline, (o.statementDoc 0 statement).Flat := by
      intro statement listed
      obtain ⟨child, member, rfl⟩ := List.mem_map.1 listed
      refine h.flat_statementDoc (fun i inside => lacks i ?_) 0
      exact h.parent_mem_lineage inside ((h.parent_iff child id).2 member)
    have full : ¬ ((t.body id).map t.outline = [] ∧ o.foldEmptyScopes = false) := by
      simp [nonempty]
    apply String.toList_injective
    rw [Tree.renderNode, Doc.toList_render, h.outline_eq, Reader.atoms_scope scope headed,
      if_neg full, lay_commentDocs, lay_headerDocs, lay_bodyDocs unlimited flat, lay_some_zero,
      lay_none_text, lay_nil, List.append_assoc, List.cons_append, Text.toList_join_around]
    simp [List.flatMap_map, Tree.renderNode]

theorem printing_is_compositional_nestedFile :
    nestedFile.Linked ∧ (∀ i, ∀ x ∈ (nestedFile.node i).stripped.texts, '\n' ∉ x.toList) ∧
      nestedFile.render {} = "# typed: strict\n\n" ++ String.join
        ((nestedFile.body Tree.root).map fun id => nestedFile.renderNode id {} ++ "\n") ∧
      (∃ comments header, comments = ["# First.", "# Second."] ∧
        header = "class ::A::B < Base[T]" ∧ nestedFile.renderNode 1 {} = Text.join "\n"
          (comments ++ header ::
            ((nestedFile.body 1).map fun child => Text.indent 2 (nestedFile.renderNode child {})) ++
            ["end"])) ∧
      Text.indent 2 (nestedFile.renderNode 2 {}) =
        "  sig do\n    params(\n      a: T.any(Integer, String) # one\n    ).void\n  end\n" ++
          "  private def call(a = [1, \"x)\"]); end" := by
  have linked : nestedFile.Linked := Tree.linked_ofOutlines _ _
  have lacks : ∀ i, ∀ x ∈ (nestedFile.node i).stripped.texts, '\n' ∉ x.toList := by
    intro i
    by_cases inside : i < nestedFile.size
    · have slots : ∀ i < 6, ∀ x ∈ (nestedFile.node i).stripped.texts, '\n' ∉ x.toList := by decide
      exact slots i inside
    · rw [Tree.node, Tree.slot_of_size_le (Nat.le_of_not_lt inside)]
      exact fun x listed => absurd listed List.not_mem_nil
  obtain ⟨file, scope⟩ := printing_is_compositional linked {}
  have composed := scope 1 _ rfl (by decide) (by decide) rfl fun i _ => lacks i
  exact ⟨linked, lacks, file rfl, ⟨_, _, by decide, by decide, composed⟩, by decide⟩

end InterfaceFile
