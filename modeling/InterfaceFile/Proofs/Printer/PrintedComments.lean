import InterfaceFile.Proofs.Notes.Owned
import InterfaceFile.Proofs.RoundTrip.Settled
import InterfaceFile.Proofs.Tree.LaidTrees
import Mathlib.Algebra.Order.BigOperators.Group.List
import Mathlib.Algebra.Order.Group.Nat

/-!
# Comments that are printed

Every comment line is a piece of the printed document of its own, in the order of the statements. The
exception are signatures on one line, which show no comments: whether a signature is printed on one
line depends on the comments of its first parameter operation only.
-/

namespace InterfaceFile

variable {o : PrintOptions}

/-! ## Pieces of documents -/

/-- The pieces that comments are printed as, one for each line. -/
def PrintOptions.commentAtoms (o : PrintOptions) (comments : List Comment) : List Atom :=
  (commentLines comments).map fun line => .text (o.commentLine line)

@[simp]
theorem commentAtoms_append (cs ds : List Comment) :
    o.commentAtoms (cs ++ ds) = o.commentAtoms cs ++ o.commentAtoms ds := by
  simp [PrintOptions.commentAtoms, commentLines]

/-- The documents show the comments, each line as a piece of its own. -/
def Shows (o : PrintOptions) (docs : List Doc) (comments : List Comment) : Prop :=
  ∀ indent, (o.commentAtoms comments).Sublist (Doc.atomsAll indent docs)

namespace Shows

variable {docs docs' : List Doc} {comments comments' : List Comment}

theorem nothing (docs : List Doc) : Shows o docs [] :=
  fun _ => List.nil_sublist _

theorem append (h : Shows o docs comments) (h' : Shows o docs' comments') :
    Shows o (docs ++ docs') (comments ++ comments') := by
  intro indent
  rw [Doc.atomsAll_append, commentAtoms_append]
  exact (h indent).append (h' indent)

/-- What comes before shows nothing more. -/
theorem after (docs : List Doc) (h : Shows o docs' comments) : Shows o (docs ++ docs') comments :=
  (nothing docs).append h

theorem before (h : Shows o docs comments) (docs' : List Doc) : Shows o (docs ++ docs') comments := by
  have both := h.append (nothing (o := o) docs')
  rwa [List.append_nil] at both

theorem concat (h : Shows o docs comments) : Shows o [.concat docs] comments := by
  intro indent
  rw [Doc.atomsAll, Doc.atoms, Doc.atomsAll, List.append_nil]
  exact h indent

theorem nest (columns : Nat) {doc : Doc} (h : Shows o [doc] comments) :
    Shows o [.nest columns doc] comments := by
  intro indent
  have inside := h (indent + columns)
  rwa [Doc.atomsAll, Doc.atomsAll, List.append_nil] at inside ⊢

theorem flatMap {α : Type} {as : List α} {docs : α → List Doc} {comments : α → List Comment}
    (h : ∀ a ∈ as, Shows o (docs a) (comments a)) : Shows o (as.flatMap docs) (as.flatMap comments) := by
  induction as with
  | nil => exact nothing []
  | cons a as ih =>
    rw [List.flatMap_cons, List.flatMap_cons]
    exact (h a List.mem_cons_self).append (ih fun b member => h b (List.mem_cons_of_mem _ member))

end Shows

/-! ## What is printed of each part -/

theorem shows_commentDocs (cs : List Comment) : Shows o (o.commentDocs cs) cs := by
  intro indent
  show (o.commentAtoms cs).Sublist (Doc.atomsAll indent ((commentLines cs).flatMap _))
  rw [PrintOptions.commentAtoms]
  induction commentLines cs with
  | nil => exact List.nil_sublist _
  | cons line lines ih =>
    rw [List.map_cons, List.flatMap_cons, Doc.atomsAll_append]
    exact (List.Sublist.cons_cons _ (ih.cons _))

/-- The lines after an entry. -/
theorem sublist_trailingDocs (column indent : Nat) (lines : List String) :
    (lines.map fun line => Atom.text (o.commentLine line)).Sublist
      (Doc.atomsAll indent (o.trailingDocs column lines)) := by
  cases lines with
  | nil => exact List.nil_sublist _
  | cons first rest =>
    refine .cons _ (.cons_cons _ ?_)
    induction rest with
    | nil => exact List.nil_sublist _
    | cons line rest ih =>
      rw [List.map_cons, List.flatMap_cons, Doc.atomsAll_append]
      exact .cons _ (.cons _ (.cons_cons _ ih))

theorem shows_entryDocs (text : String) (cs : List Comment) : Shows o (o.entryDocs text cs) cs :=
  fun indent => .cons _ (.cons _ (sublist_trailingDocs _ indent _))

theorem shows_entriesDocs : ∀ es : List (String × List Comment),
    Shows o (o.entriesDocs es) (es.flatMap Prod.snd)
  | [] => .nothing []
  | [(text, cs)] => by
    rw [List.flatMap_singleton]
    exact shows_entryDocs text cs
  | (text, cs) :: e :: rest => by
    rw [List.flatMap_cons]
    exact (shows_entryDocs _ cs).append (shows_entriesDocs (e :: rest))

/-- A list of entries on lines of their own between two texts. -/
theorem shows_listed {α : Type} (render : α → String) (comments : α → List Comment) (as : List α)
    (opening closing : Doc) : Shows o
      [opening, .nest o.indentWidth (.concat (o.entriesDocs (as.map fun a => (render a, comments a)))),
        .line, closing] (as.flatMap comments) := by
  have entries := shows_entriesDocs (o := o) (as.map fun a => (render a, comments a))
  rw [List.flatMap_map] at entries
  exact ((entries.concat.nest o.indentWidth).after [opening]).before [.line, closing]

theorem shows_paramsDocs (ps : List Param) : Shows o (o.paramsDocs ps) (ps.flatMap Param.comments) := by
  rw [PrintOptions.paramsDocs]
  split
  · next none =>
    rw [List.isEmpty_iff.1 none]
    exact .nothing _
  · split
    · next silent =>
      have none : ps.flatMap Param.comments = [] := by
        simpa [List.flatMap_eq_nil_iff] using silent
      rw [none]
      exact .nothing _
    · exact shows_listed Param.render Param.comments ps _ _

/-- The comments of a signature that are printed at a depth of nesting: on one line there are none. -/
def Sig.shownComments (o : PrintOptions) (depth : Nat) (s : Sig) : List Comment :=
  if s.onOneLine o depth then [] else s.comments

/-- The comments of a signature are those of the entries of all its parameter operations. -/
theorem Sig.comments_eq (s : Sig) : s.comments = (s.allParams?.getD []).flatMap SigParam.comments := by
  have entries : (s.allParams?.getD []) = (s.ops.filterMap SigOp.params?).flatten := by
    rw [allParams?]
    split
    · next none => rw [none]; rfl
    · rfl
  rw [entries, comments]
  induction s.ops with
  | nil => rfl
  | cons op ops ih =>
    cases op with
    | params entries =>
      show entries.flatMap _ ++ ops.flatMap _ = (entries :: ops.filterMap SigOp.params?).flatten.flatMap _
      rw [ih, List.flatten_cons, List.flatMap_append]
    | _ => exact ih

theorem shows_blockBody (s : Sig) : Shows o [s.blockBody o] s.comments := by
  rw [s.comments_eq, Sig.blockBody]
  cases s.allParams? with
  | none => exact .nothing _
  | some entries => exact (shows_listed SigParam.render SigParam.comments entries _ _).concat

theorem shows_sigDoc (s : Sig) (depth : Nat) : Shows o [s.doc o depth] (s.shownComments o depth) := by
  rw [Sig.doc, Sig.shownComments]
  split
  · next empty =>
    -- Without printed operations there are no parameters either.
    have none : s.allParams? = none := by
      cases params : s.allParams? with
      | none => rfl
      | some entries => simp [Sig.chainTexts, params] at empty
    rw [s.comments_eq, none]
    simpa using Shows.nothing _
  · split
    · exact .nothing _
    · have inside : Shows o [.line, s.blockBody o] s.comments := (shows_blockBody s).after [.line]
      exact (((inside.concat.nest o.indentWidth).after [_, _, _]).before [.line, _]).concat

theorem shows_sigDocs (depth : Nat) (sigs : List Sig) :
    Shows o (o.sigDocs depth sigs) (sigs.flatMap (Sig.shownComments o depth)) :=
  .flatMap fun s _ => (shows_sigDoc s depth).before [.line]

theorem shows_methodDoc (m : Method) : Shows o [o.methodDoc m] (m.params.flatMap Param.comments) := by
  rw [PrintOptions.methodDoc]
  exact ((shows_paramsDocs m.params).after _).before _ |>.concat

/-! ## Statements -/

/-- The comments of a node that are printed at a depth of nesting, in printed order. -/
def Node.shownComments (o : PrintOptions) (depth : Nat) (n : Node) : List Comment :=
  n.comments ++ (n.decl.sigs.flatMap (Sig.shownComments o depth) ++
    n.decl.params.flatMap Param.comments)

theorem shows_leafDocs (depth : Nat) (d : Declaration) : Shows o (o.leafDocs depth d)
    (d.sigs.flatMap (Sig.shownComments o depth) ++ d.params.flatMap Param.comments) := by
  cases d with
  | method m => exact (shows_sigDocs depth m.sigs).append (shows_methodDoc m)
  | attr a => exact (shows_sigDocs depth a.sigs).append (.nothing _)
  | _ => exact .nothing _

/-- The depth of what stands inside a node: a file inside another scope is not indented. -/
def Node.depthInside (depth : Nat) (n : Node) : Nat :=
  match n.decl with
  | .scope { kind := .root, .. } => depth
  | _ => depth + 1

namespace Outline

mutual

/-- The nodes of a statement with the depths at which they are printed. -/
def placed (depth : Nat) : Outline → List (Nat × Node)
  | mk node body => (depth, node) :: placedAll (node.depthInside depth) body

/-- The nodes of a list of statements with the depths at which they are printed. -/
def placedAll (depth : Nat) : List Outline → List (Nat × Node)
  | [] => []
  | o :: rest => o.placed depth ++ placedAll depth rest

end

mutual

/-- Only scopes have bodies. -/
def Leafy : Outline → Prop
  | mk node body => (body ≠ [] → node.isScope = true) ∧ LeafyAll body

/-- Only scopes have bodies, in a list of statements. -/
def LeafyAll : List Outline → Prop
  | [] => True
  | o :: rest => o.Leafy ∧ LeafyAll rest

end

end Outline

/-- The comments of placed nodes that are printed. -/
def shownComments (o : PrintOptions) (nodes : List (Nat × Node)) : List Comment :=
  nodes.flatMap fun p => p.2.shownComments o p.1

/-- A scope shows what its body shows. -/
theorem shows_scope {depth : Nat} {body : List Outline} {comments : List Comment} (s : Scope)
    (inside : Shows o (o.bodyDocs depth body) comments) (empty : body = [] → comments = []) :
    Shows o (if body.isEmpty then o.headerDocs s ++ o.emptyEnd
      else o.headerDocs s ++ [.nest o.indentWidth (.concat (o.bodyDocs depth body)), .line,
        .text (o.keyword "end")]) comments := by
  split
  · next none =>
    rw [empty (List.isEmpty_iff.1 none)]
    exact .nothing _
  · exact ((inside.concat.nest o.indentWidth).before [.line, _]).after _

mutual

theorem shows_statementDoc : ∀ (depth : Nat) (s : Outline), s.Leafy →
    Shows o [o.statementDoc depth s] (shownComments o (s.placed depth))
  | depth, .mk node body, ⟨leaf, inside⟩ => by
    rw [PrintOptions.statementDoc, Outline.placed, shownComments, List.flatMap_cons,
      Node.shownComments, List.append_assoc]
    refine Shows.concat ((shows_commentDocs node.comments).append ?_)
    have body' := shows_bodyDocs (node.depthInside depth) body inside
    obtain ⟨decl, comments, loc⟩ := node
    cases decl with
    | scope s =>
      obtain ⟨kind, name⟩ := s
      cases kind with
      | root =>
        cases body with
        | nil => exact .nothing _
        | cons first rest =>
          rw [Outline.placedAll, List.flatMap_append]
          exact (shows_statementDoc depth first inside.1).append (shows_bodyDocs depth rest inside.2)
      | _ => exact shows_scope _ body' fun none => by rw [none]; rfl
    | _ =>
      obtain rfl : body = [] := by
        by_contra nonempty
        cases leaf nonempty
      rw [Outline.placedAll, List.flatMap_nil, List.append_nil]
      exact shows_leafDocs depth _

theorem shows_bodyDocs : ∀ (depth : Nat) (os : List Outline), Outline.LeafyAll os →
    Shows o (o.bodyDocs depth os) (shownComments o (Outline.placedAll depth os))
  | _, [], _ => .nothing _
  | depth, s :: rest, ⟨first, later⟩ => by
    rw [PrintOptions.bodyDocs, Outline.placedAll, shownComments, List.flatMap_append]
    exact ((shows_statementDoc depth s first).append (shows_bodyDocs depth rest later)).after [.line]

end

/-! ## Files -/

namespace Outline

theorem placedAll_eq (depth : Nat) (os : List Outline) : placedAll depth os = os.flatMap (placed depth) := by
  induction os with
  | nil => rfl
  | cons o os ih => rw [placedAll, ih, List.flatMap_cons]

mutual

theorem map_placed (depth : Nat) : ∀ o : Outline, (o.placed depth).map Prod.snd = o.nodes
  | mk node body => by rw [placed, List.map_cons, map_placedAll, nodes]

theorem map_placedAll (depth : Nat) : ∀ os : List Outline,
    (placedAll depth os).map Prod.snd = nodesAll os
  | [] => rfl
  | o :: rest => by rw [placedAll, List.map_append, map_placed, map_placedAll, nodesAll]

end

theorem leafyAll_of_forall {os : List Outline} (h : ∀ o ∈ os, o.Leafy) : LeafyAll os := by
  induction os with
  | nil => trivial
  | cons o os ih => exact ⟨h o List.mem_cons_self, ih fun p member => h p (List.mem_cons_of_mem _ member)⟩

end Outline

theorem shows_fileDoc (strictness : Option String) {body : List Outline} (leafy : ∀ s ∈ body, s.Leafy) :
    Shows o [o.fileDoc strictness body] (shownComments o (Outline.placedAll 0 body)) := by
  rw [PrintOptions.fileDoc, Outline.placedAll_eq, shownComments, List.flatMap_assoc]
  refine Shows.concat (Shows.after _ (.flatMap fun s member => ?_))
  exact ((shows_statementDoc 0 s (leafy s member)).before [.line]).after _

/-! ## What is not printed -/

/-- On one line a signature is printed as if it had no comments. -/
theorem Sig.doc_stripped {depth : Nat} {s : Sig} (line : s.onOneLine o depth = true) :
    s.stripped.doc o depth = s.doc o depth := by
  have text : s.stripped.chainText = s.chainText := by
    rw [chainText, chainText, s.chainTexts_stripped]
  have line' : s.stripped.onOneLine o depth = true := by
    rw [onOneLine, Bool.and_eq_true] at line ⊢
    rw [s.hasParamComments_stripped, lineWidth, text]
    exact ⟨rfl, line.2⟩
  rw [doc, doc, line, line', text, s.chainTexts_stripped]
  rfl

/-- With one parameter operation a signature on one line has no comments. -/
theorem Sig.comments_eq_nil {depth : Nat} {s : Sig} (single : (s.ops.filterMap SigOp.params?).length ≤ 1)
    (line : s.onOneLine o depth = true) : s.comments = [] := by
  rw [onOneLine, Bool.and_eq_true, Bool.not_eq_true', hasParamComments_eq] at line
  rw [s.comments_eq, allParams?]
  cases lists : s.ops.filterMap SigOp.params? with
  | nil => rfl
  | cons first rest =>
    obtain rfl : rest = [] := List.length_eq_zero_iff.1 (by rw [lists, List.length_cons] at single; omega)
    rw [lists] at line
    have silent := line.1
    simpa [List.flatMap_eq_nil_iff] using silent

theorem length_flatMap_lt {α β : Type} {f g : α → List β} {as : List α}
    (le : ∀ a ∈ as, (f a).length ≤ (g a).length) (lt : ∃ a ∈ as, (f a).length < (g a).length) :
    (as.flatMap f).length < (as.flatMap g).length := by
  rw [List.length_flatMap, List.length_flatMap]
  exact List.sum_lt_sum _ _ le lt

theorem Sig.length_shownComments_le (o : PrintOptions) (depth : Nat) (s : Sig) :
    (s.shownComments o depth).length ≤ s.comments.length := by
  rw [shownComments]
  split
  · exact Nat.zero_le _
  · exact Nat.le_refl _

theorem Node.length_shownComments_le (o : PrintOptions) (depth : Nat) (n : Node) :
    (n.shownComments o depth).length ≤ n.ownedComments.length := by
  have sigs : (n.decl.sigs.flatMap (Sig.shownComments o depth)).length ≤
      (n.decl.sigs.flatMap Sig.comments).length := by
    rw [List.length_flatMap, List.length_flatMap]
    exact List.sum_le_sum fun s _ => s.length_shownComments_le o depth
  simp only [shownComments, ownedComments, Declaration.comments, List.length_append]
  omega

/-- A signature on one line that has comments hides them. -/
theorem Node.length_shownComments_lt {depth : Nat} {n : Node} {s : Sig} (member : s ∈ n.decl.sigs)
    (line : s.onOneLine o depth = true) (noted : s.comments ≠ []) :
    (n.shownComments o depth).length < n.ownedComments.length := by
  have hidden : (s.shownComments o depth).length < s.comments.length := by
    rw [Sig.shownComments, if_pos line]
    exact List.length_pos_iff.2 noted
  have sigs := length_flatMap_lt (fun s _ => s.length_shownComments_le o depth) ⟨s, member, hidden⟩
  simp only [shownComments, ownedComments, Declaration.comments, List.length_append]
  omega

theorem Node.shownComments_perm {depth : Nat} {n : Node}
    (unhidden : ∀ s ∈ n.decl.sigs, s.onOneLine o depth = true → s.comments = []) :
    (n.shownComments o depth).Perm n.ownedComments := by
  have shown : ∀ s ∈ n.decl.sigs, s.shownComments o depth = s.comments := by
    intro s member
    rw [Sig.shownComments]
    split
    · next line => exact (unhidden s member line).symm
    · rfl
  rw [shownComments, ownedComments, Declaration.comments, List.flatMap_congr shown]
  exact List.perm_append_comm.append_left _

/-- All comments are printed exactly if no signature is printed on one line though it has some. -/
theorem shownComments_perm_iff {nodes : List (Nat × Node)} :
    (shownComments o nodes).Perm ((nodes.map Prod.snd).flatMap Node.ownedComments) ↔
      ∀ p ∈ nodes, ∀ s ∈ p.2.decl.sigs, s.onOneLine o p.1 = true → s.comments = [] := by
  rw [List.flatMap_map, shownComments]
  constructor
  · intro same p member s inside line
    by_contra noted
    have fewer := length_flatMap_lt (fun p _ => p.2.length_shownComments_le o p.1)
      ⟨p, member, Node.length_shownComments_lt inside line noted⟩
    exact fewer.ne same.length_eq
  · intro hidesNothing
    exact .flatMap_left _ fun p member => Node.shownComments_perm (hidesNothing p member)

namespace Tree

variable {t : Tree}

/-- The pieces of the printed tree. -/
def atoms (o : PrintOptions) (t : Tree) : List Atom :=
  (o.fileDoc t.strictness (t.outline root).body).atoms 0

/-- The nodes below the root with the depths at which they are printed. -/
def placed (t : Tree) : List (Nat × Node) :=
  Outline.placedAll 0 (t.outline root).body

/-- The comments of everything that stands below the root. -/
def comments (t : Tree) : List Comment :=
  Outline.commentsAll (t.outline root).body

theorem Linked.leafy_outline (linked : t.Linked)
    (leaves : ∀ id, t.body id ≠ [] → (t.node id).isScope = true) (id : NodeId) :
    (t.outline id).Leafy := by
  induction id using linked.descent.induction with
  | _ id ih =>
    rw [linked.outline_eq]
    refine ⟨fun nonempty => leaves id fun none => nonempty (by rw [none]; rfl), ?_⟩
    refine Outline.leafyAll_of_forall fun o member => ?_
    obtain ⟨child, listed, rfl⟩ := List.mem_map.1 member
    exact ih child listed

end Tree

/-- The printer loses no comment but those of signatures on one line. Every line of every comment that
    is shown is a piece of the printed text of its own. All comments below the root are shown exactly if
    no signature with comments is printed on one line, which always holds if signatures have one
    parameter operation. A signature on one line is printed as if it had no comments. -/
theorem comments_are_printed (o : PrintOptions) {t : Tree} (linked : t.Linked)
    (leaves : ∀ id, t.body id ≠ [] → (t.node id).isScope = true) :
    (t.render o).toList = lay none (t.atoms o) ∧
      (o.commentAtoms (shownComments o t.placed)).Sublist (t.atoms o) ∧
      ((shownComments o t.placed).Perm t.comments ↔
        ∀ p ∈ t.placed, ∀ s ∈ p.2.decl.sigs, s.onOneLine o p.1 = true → s.comments = []) ∧
      ((∀ p ∈ t.placed, ∀ s ∈ p.2.decl.sigs, (s.ops.filterMap SigOp.params?).length ≤ 1) →
        (shownComments o t.placed).Perm t.comments) ∧
      ∀ (s : Sig) (depth : Nat), s.onOneLine o depth = true → s.stripped.doc o depth = s.doc o depth := by
  have complete : (shownComments o t.placed).Perm t.comments ↔
      ∀ p ∈ t.placed, ∀ s ∈ p.2.decl.sigs, s.onOneLine o p.1 = true → s.comments = [] := by
    rw [← shownComments_perm_iff, Tree.placed, Outline.map_placedAll]
    rfl
  refine ⟨Doc.toList_render _, ?_, complete, fun single => complete.2 fun p member s inside => ?_,
    fun s depth => s.doc_stripped⟩
  · have leafy : ∀ s ∈ (t.outline Tree.root).body, s.Leafy := by
      intro s member
      rw [linked.outline_eq] at member
      obtain ⟨child, -, rfl⟩ := List.mem_map.1 member
      exact linked.leafy_outline leaves child
    have shown := shows_fileDoc (o := o) t.strictness leafy 0
    rwa [Doc.atomsAll, Doc.atomsAll, List.append_nil] at shown
  · exact Sig.comments_eq_nil (single p member s inside)

theorem Tree.leaves_of_lt {t : Tree} (h : ∀ id < t.size, t.body id ≠ [] → (t.node id).isScope = true)
    (id : NodeId) (nonempty : t.body id ≠ []) : (t.node id).isScope = true := by
  refine h id ?_ nonempty
  by_contra outside
  exact nonempty (body_of_size_le (Nat.le_of_not_lt outside))

theorem comments_are_printed_nestedFile :
    nestedFile.Linked ∧ nestedFile.comments = [{ text := "First.\nSecond." }, { text := "one" }] ∧
      (PrintOptions.commentAtoms {} (shownComments {} nestedFile.placed)).Sublist (nestedFile.atoms {}) ∧
      (shownComments {} nestedFile.placed).Perm nestedFile.comments := by
  have linked : nestedFile.Linked := Tree.linked_ofOutlines _ _
  have leaves := Tree.leaves_of_lt (t := nestedFile) (by decide)
  obtain ⟨-, shown, -, complete, -⟩ := comments_are_printed {} linked leaves
  exact ⟨linked, by decide, shown, complete (by decide)⟩

/-- A method whose signature has the commented parameter in a second operation. -/
def splitParams : Tree :=
  .ofOutlines none
    [.mk { decl := .method
            { name := "f"
              params := [{ name := "a" }, { name := "b" }]
              sigs := [{ ops :=
                [.params [{ name := "a", type := "A" }],
                  .params [{ name := "b", type := "B", comments := [{ text := "note" }] }], .void] }] } }
      []]

/-- The comment of a parameter of a second operation can be lost. -/
theorem later_comment_is_lost :
    splitParams.Linked ∧ (∀ id, splitParams.body id ≠ [] → (splitParams.node id).isScope = true) ∧
      splitParams.comments = [{ text := "note" }] ∧
      Atom.text (PrintOptions.commentLine {} "note") ∉ splitParams.atoms {} ∧
      splitParams.render {} = "sig \x7b params(a: A, b: B).void \x7d\ndef f(a, b); end\n" := by
  refine ⟨Tree.linked_ofOutlines _ _, Tree.leaves_of_lt (by decide), by decide, by decide, ?_⟩
  decide

end InterfaceFile
