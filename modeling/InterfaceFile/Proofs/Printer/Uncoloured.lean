import InterfaceFile.Proofs.Notes.Owned
import InterfaceFile.Proofs.Printer.Colours

/-!
# Colours change nothing but colours

Every part of a printed statement is the same document with and without colours, but for the escape
sequences around keywords, names and comments: nothing that decides on the layout looks at them.
Taking the sequences out of the printed text gives the text that is printed without colours, unless
the tree brings escape characters of its own.
-/

namespace InterfaceFile

/-! ## Parts of statements -/

/-- The options without colours. -/
def PrintOptions.uncoloured (o : PrintOptions) : PrintOptions :=
  { o with colorize := false }

section Parts

open Text (Plain)

variable {o : PrintOptions}

theorem uncolours_paint {style : Style} (sequence : style.IsSequence) {s : String} (plain : Plain s) :
    Uncolours [.text (o.paint style s)] [.text (o.uncoloured.paint style s)] :=
  Uncolours.stripped (Style.stripsTo_paint sequence o.colorize plain)

theorem uncolours_keyword {word : String} (plain : Plain word) :
    Uncolours [.text (o.keyword word)] [.text (o.uncoloured.keyword word)] :=
  uncolours_paint Style.isSequence_keyword plain

theorem uncolours_commentLine {s : String} (plain : Plain s) :
    Uncolours [.text (o.commentLine s)] [.text (o.uncoloured.commentLine s)] := by
  refine uncolours_paint Style.isSequence_comment ?_
  split
  · decide
  · exact Text.plain_append.2 ⟨by decide, plain⟩

/-- All lines of comments without escape characters are such. -/
theorem plain_lines {comments : List Comment} (plain : ∀ s ∈ comments.map Comment.text, Plain s) :
    ∀ line ∈ comments.flatMap Comment.lines, Plain line := by
  intro line listed
  obtain ⟨c, member, inside⟩ := List.mem_flatMap.1 listed
  exact Text.lacks_of_mem_lines (plain _ (List.mem_map_of_mem member)) inside

theorem uncolours_commentDocs {comments : List Comment}
    (plain : ∀ s ∈ comments.map Comment.text, Plain s) :
    Uncolours (o.commentDocs comments) (o.uncoloured.commentDocs comments) :=
  .flatMap fun line listed => (uncolours_commentLine (plain_lines plain line listed)).cons .line

theorem uncolours_trailingDocs (column : Nat) {lines : List String} (plain : ∀ s ∈ lines, Plain s) :
    Uncolours (o.trailingDocs column lines) (o.uncoloured.trailingDocs column lines) := by
  cases lines with
  | nil => exact .nil
  | cons first rest =>
    obtain ⟨head, tail⟩ := List.forall_mem_cons.1 plain
    have spaces : Plain (Text.spaces column) := by simp [Plain, Text.spaces]
    have one : Uncolours [.text " "] [.text " "] := .text (by decide)
    exact one.cons <| (uncolours_commentLine head).cons <| .flatMap fun line listed =>
      Uncolours.line.cons <| (Uncolours.text spaces).cons <| uncolours_commentLine (tail line listed)

theorem uncolours_entryDocs {text : String} {comments : List Comment} (plain : Plain text)
    (plain' : ∀ s ∈ comments.map Comment.text, Plain s) :
    Uncolours (o.entryDocs text comments) (o.uncoloured.entryDocs text comments) :=
  Uncolours.line.cons <| (Uncolours.text plain).cons <|
    uncolours_trailingDocs _ (plain_lines plain')

theorem uncolours_entriesDocs : ∀ {entries : List (String × List Comment)},
    (∀ e ∈ entries, Plain e.1 ∧ ∀ s ∈ e.2.map Comment.text, Plain s) →
    Uncolours (o.entriesDocs entries) (o.uncoloured.entriesDocs entries)
  | [], _ => .nil
  | [e], plain => uncolours_entryDocs (plain e (by simp)).1 (plain e (by simp)).2
  | e :: e' :: rest, plain => by
    obtain ⟨head, tail⟩ := List.forall_mem_cons.1 plain
    exact (uncolours_entryDocs (Text.plain_append.2 ⟨head.1, by decide⟩) head.2).append
      (uncolours_entriesDocs tail)

/-- A list of entries on lines of their own between two texts. -/
theorem uncolours_listed {α : Type} (render : α → String) (comments : α → List Comment) {as : List α}
    (plain : ∀ a ∈ as, Plain (render a) ∧ ∀ s ∈ (comments a).map Comment.text, Plain s)
    {opening closing : String} (first : Plain opening) (last : Plain closing) :
    Uncolours
      [.text opening,
        .nest o.indentWidth (.concat (o.entriesDocs (as.map fun a => (render a, comments a)))),
        .line, .text closing]
      [.text opening, .nest o.uncoloured.indentWidth
          (.concat (o.uncoloured.entriesDocs (as.map fun a => (render a, comments a)))),
        .line, .text closing] := by
  have entries : ∀ e ∈ as.map fun a => (render a, comments a),
      Plain e.1 ∧ ∀ s ∈ e.2.map Comment.text, Plain s := by
    intro e listed
    obtain ⟨a, member, rfl⟩ := List.mem_map.1 listed
    exact plain a member
  exact (Uncolours.text first).cons <|
    (Uncolours.nest _ (uncolours_entriesDocs entries).concat).cons <| Uncolours.line.cons <|
      .text last

/-! ### Signatures -/

namespace Sig

variable {s : Sig}

theorem uncolours_blockBody (plain : ∀ x ∈ s.texts, Plain x) :
    Uncolours [s.blockBody o] [s.blockBody o.uncoloured] := by
  rw [blockBody, blockBody]
  cases params : s.allParams? with
  | none => exact .text (lacks_chainText (by decide) plain)
  | some entries =>
    have inside : ∀ p ∈ entries, Plain p.render ∧ ∀ x ∈ p.comments.map Comment.text, Plain x := by
      intro p listed
      have texts := lacks_of_mem_allParams plain params p listed
      exact ⟨SigParam.lacks_render (by decide) texts, fun x member => texts x (by simp_all [SigParam.texts])⟩
    have listed := fun {opening closing : String} (first : Plain opening) (last : Plain closing) =>
      (uncolours_listed (o := o) SigParam.render SigParam.comments inside first last).concat
    have first : ∀ {before}, s.typeParametersText? = some before → Plain (before ++ ".params(") :=
      fun given => Text.plain_append.2 ⟨lacks_typeParametersText (by decide) plain _ given, by decide⟩
    have last : ∀ {after}, s.trailerText? = some after → Plain (")." ++ after) :=
      fun given => Text.plain_append.2 ⟨by decide, lacks_trailerText (by decide) plain _ given⟩
    cases before : s.typeParametersText? with
    | none =>
      cases after : s.trailerText? with
      | none => exact listed (by decide) (by decide)
      | some trailer => exact listed (by decide) (last after)
    | some types =>
      cases after : s.trailerText? with
      | none => exact listed (first before) (by decide)
      | some trailer => exact listed (first before) (last after)

/-- Which layout a signature gets does not depend on colours. -/
theorem uncolours_doc (plain : ∀ x ∈ s.texts, Plain x) (depth : Nat) :
    Uncolours [s.doc o depth] [s.doc o.uncoloured depth] := by
  have word : Uncolours [.text (o.paint .sig "sig")] [.text (o.uncoloured.paint .sig "sig")] :=
    uncolours_paint Style.isSequence_sig (by decide)
  have opens : Uncolours [.text (o.keyword "do")] [.text (o.uncoloured.keyword "do")] :=
    uncolours_keyword (by decide)
  have ends : Uncolours [.text (o.keyword "end")] [.text (o.uncoloured.keyword "end")] :=
    uncolours_keyword (by decide)
  have space : Uncolours [.text " "] [.text " "] := .text (by decide)
  have layout : s.onOneLine o.uncoloured depth = s.onOneLine o depth := rfl
  have folds : o.uncoloured.foldEmptyScopes = o.foldEmptyScopes := rfl
  simp only [doc, layout, folds]
  split
  · split
    · exact (word.cons <| space.cons <| opens.cons <| Uncolours.line.cons ends).concat
    · exact (word.cons (.text (by decide))).concat
  · split
    · exact (word.cons <| (Uncolours.text (by decide)).cons <|
        (Uncolours.text (lacks_chainText (by decide) plain)).cons <| .text (by decide)).concat
    · exact (word.cons <| space.cons <| opens.cons <|
        (Uncolours.nest _ (Uncolours.line.cons (uncolours_blockBody plain)).concat).cons <|
          Uncolours.line.cons ends).concat

end Sig

/-! ### Declarations -/

theorem uncolours_visibilityDoc (level : Visibility) :
    Uncolours [o.visibilityDoc level] [o.uncoloured.visibilityDoc level] := by
  have prefixed : ∀ word, Plain word → Uncolours [.concat [.text (o.keyword word), .text " "]]
      [.concat [.text (o.uncoloured.keyword word), .text " "]] :=
    fun word plain => ((uncolours_keyword plain).cons (.text (by decide))).concat
  cases level with
  | pub => exact fun _ => .nil
  | prot => exact prefixed _ (by decide)
  | priv => exact prefixed _ (by decide)

theorem uncolours_emptyEnd : Uncolours o.emptyEnd o.uncoloured.emptyEnd := by
  have ends : Uncolours [.text (o.keyword "end")] [.text (o.uncoloured.keyword "end")] :=
    uncolours_keyword (by decide)
  have folds : o.uncoloured.foldEmptyScopes = o.foldEmptyScopes := rfl
  rw [PrintOptions.emptyEnd, PrintOptions.emptyEnd, folds]
  split
  · exact Uncolours.line.cons ends
  · exact (Uncolours.text (by decide)).cons ends

theorem uncolours_paramsDocs {params : List Param} (plain : ∀ p ∈ params, ∀ s ∈ p.texts, Plain s) :
    Uncolours (o.paramsDocs params) (o.uncoloured.paramsDocs params) := by
  rw [PrintOptions.paramsDocs, PrintOptions.paramsDocs]
  split
  · exact .nil
  · split
    · refine .text (Text.plain_append.2 ⟨Text.plain_append.2 ⟨by decide, ?_⟩, by decide⟩)
      refine Text.lacks_join (by decide) fun s listed => ?_
      obtain ⟨p, member, rfl⟩ := List.mem_map.1 listed
      exact Param.lacks_render (by decide) (plain p member)
    · exact uncolours_listed Param.render Param.comments (fun p listed =>
        ⟨Param.lacks_render (by decide) (plain p listed), fun s member => plain p listed s (by
          simp only [Param.texts, List.mem_append, member, or_true])⟩) (by decide) (by decide)

theorem uncolours_methodDoc {m : Method} (plain : ∀ s ∈ (Declaration.method m).texts, Plain s) :
    Uncolours [o.methodDoc m] [o.uncoloured.methodDoc m] := by
  have name : Plain m.name := plain _ (by simp [Declaration.texts])
  have params : ∀ p ∈ m.params, ∀ s ∈ p.texts, Plain s := fun p listed s member =>
    plain s (by
      simp only [Declaration.texts, List.cons_append, List.mem_cons, List.mem_append, List.mem_flatMap]
      exact .inr (.inl ⟨p, listed, member⟩))
  have self : Uncolours (if m.singleton then [.text "self."] else [])
      (if m.singleton then [.text "self."] else []) := by
    split
    · exact .text (by decide)
    · exact .nil
  have front : Uncolours [o.visibilityDoc m.visibility, .text (o.keyword "def"), .text " "]
      [o.uncoloured.visibilityDoc m.visibility, .text (o.uncoloured.keyword "def"), .text " "] :=
    (uncolours_visibilityDoc _).cons <| (uncolours_keyword (by decide)).cons (.text (by decide))
  exact ((((front.append self).append (uncolours_paint Style.isSequence_name name)).append
    (uncolours_paramsDocs params)).append uncolours_emptyEnd).concat

theorem uncolours_attributeDoc {a : Attribute} (plain : ∀ s ∈ a.names, Plain s) :
    Uncolours [o.attributeDoc a] [o.uncoloured.attributeDoc a] := by
  have word : Plain a.access.keyword := by cases a.access <;> decide
  have names : ∀ names : List String, (∀ s ∈ names, Plain s) →
      Uncolours ((names.map fun name => Doc.text (":" ++ name)).intersperse (.text ", "))
        ((names.map fun name => Doc.text (":" ++ name)).intersperse (.text ", ")) := by
    intro names plain
    induction names with
    | nil => exact .nil
    | cons name rest ih =>
      obtain ⟨here, after⟩ := List.forall_mem_cons.1 plain
      have one : Uncolours [.text (":" ++ name)] [.text (":" ++ name)] :=
        .text (Text.plain_append.2 ⟨by decide, here⟩)
      cases rest with
      | nil => exact one
      | cons name' rest => exact one.cons ((Uncolours.text (by decide)).cons (ih after))
  exact ((uncolours_visibilityDoc _).cons <| (uncolours_keyword word).cons <|
    (Uncolours.text (by decide)).cons (names a.names plain).concat).concat

theorem uncolours_sigDocs (depth : Nat) {sigs : List Sig} (plain : ∀ s ∈ sigs, ∀ x ∈ s.texts, Plain x) :
    Uncolours (o.sigDocs depth sigs) (o.uncoloured.sigDocs depth sigs) :=
  .flatMap fun s listed => (Sig.uncolours_doc (plain s listed) depth).cons .line

theorem uncolours_headerDocs {s : Scope} (plain : ∀ x ∈ (Declaration.scope s).texts, Plain x) :
    Uncolours (o.headerDocs s) (o.uncoloured.headerDocs s) := by
  have name : Uncolours [.text (o.paint .name s.name)] [.text (o.uncoloured.paint .name s.name)] :=
    uncolours_paint Style.isSequence_name (plain _ (by simp [Declaration.texts]))
  have space : Uncolours [.text " "] [.text " "] := .text (by decide)
  rw [PrintOptions.headerDocs, PrintOptions.headerDocs]
  cases kind : s.kind with
  | root => exact .nil
  | moduleDef => exact (uncolours_keyword (by decide)).cons (space.cons name)
  | classDef superclass =>
    refine ((uncolours_keyword (by decide)).cons (space.cons name)).append ?_
    cases superclass with
    | none => exact .nil
    | some superclass =>
      have inside : Plain superclass := plain _ (by simp [Declaration.texts, kind])
      exact (Uncolours.text (by decide)).cons (.text inside)
  | singletonClass => exact (uncolours_keyword (by decide)).cons (.text (by decide))

theorem uncolours_leafDocs (depth : Nat) {d : Declaration} (plain : ∀ s ∈ d.texts, Plain s) :
    Uncolours (o.leafDocs depth d) (o.uncoloured.leafDocs depth d) := by
  cases d with
  | scope s => exact uncolours_headerDocs plain
  | const c =>
    have name : Plain c.name := plain _ (by simp [Declaration.texts])
    show Uncolours [PrintOptions.constantDoc c] [PrintOptions.constantDoc c]
    rw [PrintOptions.constantDoc]
    cases value : c.value with
    | none => exact .text name
    | some text =>
      have inside : Plain text := plain _ (by simp [Declaration.texts, value])
      exact ((Uncolours.text name).cons <| (Uncolours.text (by decide)).cons (.text inside)).concat
  | method m =>
    refine (uncolours_sigDocs depth fun s listed x member => plain x ?_).append
      (uncolours_methodDoc plain)
    exact List.mem_append_right _ (List.mem_flatMap.2 ⟨s, listed, member⟩)
  | attr a =>
    refine (uncolours_sigDocs depth fun s listed x member => plain x ?_).append
      (uncolours_attributeDoc fun s listed => plain s (List.mem_append_left _ listed))
    exact List.mem_append_right _ (List.mem_flatMap.2 ⟨s, listed, member⟩)
  | call c => exact .text (Call.lacks_render (by decide) plain)
  | blank => exact .nil

/-! ### Statements -/

mutual

theorem uncolours_statementDoc (depth : Nat) :
    ∀ {statement : Outline}, (∀ n ∈ statement.nodes, ∀ s ∈ n.texts, Plain s) →
      Uncolours [o.statementDoc depth statement] [o.uncoloured.statementDoc depth statement]
  | .mk node body, plain => by
    obtain ⟨own, inside⟩ := List.forall_mem_cons.1 plain
    have comments : ∀ s ∈ node.comments.map Comment.text, Plain s := fun s listed =>
      own s (List.mem_append_left _ (List.mem_append_right _ listed))
    have declared : ∀ s ∈ node.decl.texts, Plain s := fun s listed =>
      own s (List.mem_append_left _ (List.mem_append_left _ listed))
    rw [PrintOptions.statementDoc, PrintOptions.statementDoc]
    refine ((uncolours_commentDocs comments).append ?_).concat
    have bodies : ∀ depth, Uncolours (o.bodyDocs depth body) (o.uncoloured.bodyDocs depth body) :=
      fun depth => uncolours_bodyDocs depth inside
    have scope : ∀ s : Scope, (∀ x ∈ (Declaration.scope s).texts, Plain x) → Uncolours
        (if body.isEmpty then o.headerDocs s ++ o.emptyEnd
          else o.headerDocs s ++ [.nest o.indentWidth (.concat (o.bodyDocs (depth + 1) body)), .line,
            .text (o.keyword "end")])
        (if body.isEmpty then o.uncoloured.headerDocs s ++ o.uncoloured.emptyEnd
          else o.uncoloured.headerDocs s ++ [.nest o.uncoloured.indentWidth
              (.concat (o.uncoloured.bodyDocs (depth + 1) body)), .line,
            .text (o.uncoloured.keyword "end")]) := by
      intro s plain
      split
      · exact (uncolours_headerDocs plain).append uncolours_emptyEnd
      · exact (uncolours_headerDocs plain).append <| (bodies _).concat.nest _ |>.cons <|
          Uncolours.line.cons (uncolours_keyword (by decide))
    cases decl : node.decl with
    | scope s =>
      rw [decl] at declared
      obtain ⟨kind, name⟩ := s
      cases kind with
      | root =>
        -- A file inside another scope has no header, so the first line break is left out.
        cases body with
        | nil => exact .nil
        | cons statement rest => exact (bodies depth).tail
      | _ => exact scope _ declared
    | _ => exact uncolours_leafDocs depth (decl ▸ declared)

theorem uncolours_bodyDocs (depth : Nat) :
    ∀ {body : List Outline}, (∀ n ∈ Outline.nodesAll body, ∀ s ∈ n.texts, Plain s) →
      Uncolours (o.bodyDocs depth body) (o.uncoloured.bodyDocs depth body)
  | [], _ => .nil
  | statement :: rest, plain => by
    obtain ⟨here, after⟩ := List.forall_mem_append.1 plain
    exact Uncolours.line.cons <| (uncolours_statementDoc depth here).cons
      (uncolours_bodyDocs depth after)

end

theorem uncolours_locationDocs {n : Node} (plain : ∀ s ∈ n.texts, Plain s) :
    Uncolours (o.locationDocs n) (o.uncoloured.locationDocs n) := by
  have asked : o.uncoloured.printLocations = o.printLocations := rfl
  rw [PrintOptions.locationDocs, PrintOptions.locationDocs, asked]
  cases loc : n.loc with
  | none => exact .nil
  | some l =>
    show Uncolours (if o.printLocations then _ else _) (if o.printLocations then _ else _)
    split
    · refine (uncolours_commentLine (Location.plain_describe fun file given => plain file ?_)).cons .line
      simp [Node.texts, loc, Option.mem_def.1 given]
    · exact .nil

theorem uncolours_strictnessDocs {level : Option String} (plain : ∀ s ∈ level, Plain s) :
    Uncolours (o.strictnessDocs level) (o.uncoloured.strictnessDocs level) := by
  cases level with
  | none => exact .nil
  | some level =>
    have line := Text.plain_append.2 ⟨(by decide : Plain "typed: "), plain level rfl⟩
    exact (uncolours_commentLine line).cons (Uncolours.line.cons .line)

theorem uncolours_fileDoc {level : Option String} {body : List Outline}
    (plain : ∀ s ∈ o.strictness <|> level, Plain s)
    (plain' : ∀ n ∈ Outline.nodesAll body, ∀ s ∈ n.texts, Plain s) :
    Uncolours [o.fileDoc level body] [o.uncoloured.fileDoc level body] := by
  refine ((uncolours_strictnessDocs plain).append (.flatMap fun statement listed => ?_)).concat
  have below : ∀ n ∈ statement.nodes, ∀ s ∈ n.texts, Plain s := by
    intro n member
    refine plain' n ?_
    clear plain'
    induction body with
    | nil => cases listed
    | cons first rest ih =>
      rw [Outline.nodesAll, List.mem_append]
      rcases List.mem_cons.1 listed with rfl | later
      · exact .inl member
      · exact .inr (ih later)
  have own : statement.node ∈ statement.nodes := by
    cases statement with
    | mk node body => exact List.mem_cons_self
  exact (uncolours_locationDocs (below _ own)).append ((uncolours_statementDoc 0 below).cons .line)

end Parts

/-! ## Trees -/

mutual

theorem Tree.mem_nodes_outlineUpTo (t : Tree) : ∀ (n : Nat) (id : NodeId),
    ∀ node ∈ (t.outlineUpTo n id).nodes, ∃ i, t.node i = node
  | 0, id, node, listed => ⟨id, (List.mem_singleton.1 listed).symm⟩
  | n + 1, id, node, listed => by
    rcases List.mem_cons.1 listed with rfl | inside
    · exact ⟨id, rfl⟩
    · exact mem_nodesAll_outlineUpTo t n (t.body id) node inside

theorem Tree.mem_nodesAll_outlineUpTo (t : Tree) : ∀ (n : Nat) (ids : List NodeId),
    ∀ node ∈ Outline.nodesAll (ids.map (t.outlineUpTo n)), ∃ i, t.node i = node
  | n, [], node, listed => by cases listed
  | n, id :: ids, node, listed => by
    rcases List.mem_append.1 listed with here | later
    · exact mem_nodes_outlineUpTo t n id node here
    · exact mem_nodesAll_outlineUpTo t n ids node later

end

theorem Tree.texts_subset (t : Tree) (i : NodeId) : (t.node i).texts ⊆ t.texts := by
  intro s member
  by_cases inside : i < t.size
  · refine List.mem_append_right _ (List.mem_flatMap.2
      ⟨t.slots[i], Array.mem_toList_iff.2 (Array.getElem_mem inside), ?_⟩)
    have same : t.slots[i] = t.slot i := by
      rw [slot, Array.getElem?_eq_getElem inside]
      rfl
    rw [same]
    exact member
  · rw [node, slot_of_size_le (Nat.le_of_not_lt inside)] at member
    cases member

/-- Of a tree without escape characters and its text in colours nothing is left but the text without
    colours when the escape sequences are taken out, and so for every statement in it. -/
theorem colours_strip_away (t : Tree) (o : PrintOptions)
    (plain : ∀ s ∈ t.texts ++ o.strictness.toList, '\x1b' ∉ s.toList) :
    Style.strip (t.render { o with colorize := true }) = t.render { o with colorize := false } ∧
    ∀ id, Style.strip (t.renderNode id { o with colorize := true }) =
      t.renderNode id { o with colorize := false } := by
  obtain ⟨printed, asked⟩ := List.forall_mem_append.1 plain
  have node : ∀ i, ∀ s ∈ (t.node i).texts, Text.Plain s :=
    fun i s member => printed s (t.texts_subset i member)
  have below : ∀ id, ∀ n ∈ (t.outline id).nodes, ∀ s ∈ n.texts, Text.Plain s := by
    intro id n listed
    obtain ⟨i, rfl⟩ := t.mem_nodes_outlineUpTo t.size id n listed
    exact node i
  refine ⟨(uncolours_fileDoc (o := { o with colorize := true }) ?_ ?_).strip_render, fun id =>
    (uncolours_statementDoc (o := { o with colorize := true }) 0 (below id)).strip_render⟩
  · intro s chosen
    cases own : o.strictness with
    | some level =>
      rw [own] at asked chosen
      exact asked s (Option.mem_toList.2 chosen)
    | none =>
      rw [own] at chosen
      exact printed s (List.mem_append_left _ (Option.mem_toList.2 chosen))
  · intro n listed
    refine below Tree.root n ?_
    cases outline : t.outline Tree.root with
    | mk node body =>
      rw [outline] at listed
      exact List.mem_cons_of_mem _ listed

theorem colours_strip_away_nestedFile :
    (∀ s ∈ nestedFile.texts ++ [], '\x1b' ∉ s.toList) ∧
      Style.strip (nestedFile.render { colorize := true }) = nestedFile.render {} ∧
      Style.strip (nestedFile.renderNode 1 { colorize := true }) = nestedFile.renderNode 1 {} ∧
      nestedFile.renderNode 3 { colorize := true } =
        "\x1b[35mclass\x1b[0m << self; \x1b[35mend\x1b[0m" := by
  have plain : ∀ s ∈ nestedFile.texts ++ [], '\x1b' ∉ s.toList := by decide
  obtain ⟨whole, part⟩ := colours_strip_away nestedFile {} plain
  exact ⟨plain, whole, part 1, by decide⟩

end InterfaceFile
