import InterfaceFile.Proofs.Merge.Assembly
import InterfaceFile.Proofs.Printer.Composed
import InterfaceFile.Proofs.Rewriter.EmptyLines

/-!
# The limit for signature lines

Whether a signature fits on its line is decided from the depth at which it is printed, and the depth
is counted apart from the indentation. The two agree: every scope with a header adds one level to
both, and a file inside a scope adds none. So the columns that are reckoned with are the columns that
are written, whatever stands around the signature.
-/

namespace InterfaceFile

variable {o : PrintOptions}

/-! ## The two forms of a signature -/

namespace Sig

variable {s : Sig}

/-- The signature has an operation that is printed. Only a list of no type parameters is not. -/
def HasPrintedOp (s : Sig) : Prop :=
  ∃ op ∈ s.ops, op ≠ .typeParameters []

/-- The signature on one line, with the columns before it. -/
def line (column : Nat) (s : Sig) : String :=
  Text.spaces column ++ "sig \x7b " ++ s.chainText ++ " \x7d"

/-- The signature as a block between `sig do` and `end`, with the columns before it. -/
def block (o : PrintOptions) (column : Nat) (s : Sig) : String :=
  Text.spaces column ++ "sig do" ++
    (Doc.nest (column + o.indentWidth) (.concat [.line, s.blockBody o])).render ++ "\n" ++
    Text.spaces column ++ "end"

/-- The form that a signature gets whose line begins at `column`: a line of at most `limit`
    characters if no parameter of the first list has a comment, and a block otherwise. -/
def printedAt (o : PrintOptions) (limit column : Nat) (s : Sig) : String :=
  if s.hasParamComments = false ∧ (s.line column).length ≤ limit then s.line column
  else s.block o column

/-- The columns before the line count. -/
example : printedAt {} 14 2 { ops := [.void] } = "  sig \x7b void \x7d" ∧
    printedAt {} 13 2 { ops := [.void] } = "  sig do\n    void\n  end" := by decide

/-- Each operation has its part among the printed ones. -/
theorem chainTexts_ne_nil (shown : s.HasPrintedOp) : s.chainTexts ≠ [] := by
  obtain ⟨op, listed, printed⟩ := shown
  rw [Ne, chainTexts_eq_nil, inOrder, trailerOps]
  simp only [List.append_eq_nil_iff, Option.toList_eq_nil_iff, List.getLast?_eq_none_iff]
  rintro ⟨⟨types, params⟩, ⟨flags, results⟩, checks⟩
  have silent : ∀ {p : SigOp → Bool}, s.ops.filter p = [] → p op = false := fun none =>
    Bool.eq_false_iff.2 (List.filter_eq_nil_iff.1 none op listed)
  cases op with
  | typeParameters names =>
    have none : s.ops.flatMap SigOp.typeNames = [] := by
      rw [typeParametersOp] at types
      split at types
      · assumption
      · cases types
    exact printed (congrArg _ (List.flatMap_eq_nil_iff.1 none _ listed))
  | params entries =>
    have none : s.ops.filterMap SigOp.params? = [] := by
      rw [paramsOp, allParams?] at params
      cases given : s.ops.filterMap SigOp.params? with
      | nil => rfl
      | cons list lists => simp [given] at params
    cases List.filterMap_eq_nil_iff.1 none _ listed
  | returns type => cases silent results
  | void => cases silent results
  | checked level => cases silent checks
  | _ => cases silent flags

/-- The columns that are reckoned with for a depth are the columns before the line. -/
theorem length_line (depth : Nat) :
    (s.line (depth * o.indentWidth)).length = s.lineWidth o depth := by
  have ends : "sig \x7b  \x7d".length = "sig \x7b ".length + " \x7d".length := rfl
  rw [line, lineWidth, ends, String.length_append, String.length_append, String.length_append]
  simp only [Text.spaces, String.length_ofList, List.length_replicate]
  omega

/-- Only the form on one line is one line. -/
theorem printedAt_line_iff (lacks : ∀ x ∈ s.stripped.texts, '\n' ∉ x.toList) (limit column : Nat) :
    '\n' ∉ (s.printedAt o limit column).toList ↔
      s.hasParamComments = false ∧ (s.line column).length ≤ limit := by
  rw [printedAt]
  split
  · next fits =>
    have chain := (lacks_parts lacks).1
    have spaces : Text.Lacks '\n' (Text.spaces column) := by simp [Text.Lacks, Text.spaces]
    have line : Text.Lacks '\n' (s.line column) := by
      rw [line, Text.lacks_append, Text.lacks_append, Text.lacks_append]
      exact ⟨⟨⟨spaces, by decide⟩, chain⟩, by decide⟩
    exact ⟨fun _ => fits, fun _ => line⟩
  · next long =>
    have broken : '\n' ∈ (s.block o column).toList := by simp [block]
    exact ⟨fun one => absurd broken one, fun fits => absurd fits long⟩

/-- A signature on a fresh line, at the depth that its columns stand for. -/
theorem lay_doc (uncoloured : o.colorize = false) {limit : Nat} (limited : o.maxLineLength = some limit)
    (shown : s.HasPrintedOp) (depth : Nat) (rest : List Atom) :
    lay (some (depth * o.indentWidth)) ((s.doc o depth).atoms (depth * o.indentWidth) ++ rest) =
      (s.printedAt o limit (depth * o.indentWidth)).toList ++ lay none rest := by
  have fits : s.onOneLine o depth = true ↔
      s.hasParamComments = false ∧ (s.line (depth * o.indentWidth)).length ≤ limit := by
    simp [onOneLine, limited, length_line]
  have nonempty : s.chainTexts.isEmpty = false := by simpa using chainTexts_ne_nil shown
  generalize depth * o.indentWidth = column at fits ⊢
  have paint := Reader.paint_plain uncoloured
  have keyword := Reader.keyword_plain uncoloured
  rw [printedAt, doc, nonempty, keyword, keyword, paint]
  by_cases short : s.onOneLine o depth = true
  · rw [if_pos (fits.1 short)]
    simp [short, Doc.atoms, Doc.atomsAll, lay_some_text, line, Text.spaces]
  · rw [if_neg fun h => short (fits.2 h)]
    simp [short, Doc.atoms, Doc.atomsAll, lay_some_text, block, Text.spaces, lay_append_line,
      Doc.toList_render]

end Sig

/-! ## Pieces around a signature -/

/-- After a line break to column `n` the pieces end in such a line break again. -/
def Fresh (n : Nat) (as : List Atom) : Prop :=
  ∃ before, .line n :: as = before ++ [.line n]

namespace Fresh

variable {n : Nat} {as bs : List Atom}

theorem nil : Fresh n [] :=
  ⟨[], rfl⟩

theorem snoc (as : List Atom) : Fresh n (as ++ [.line n]) :=
  ⟨.line n :: as, rfl⟩

theorem append (h : Fresh n as) (h' : Fresh n bs) : Fresh n (as ++ bs) := by
  obtain ⟨before, same⟩ := h
  obtain ⟨before', same'⟩ := h'
  refine ⟨before ++ before', ?_⟩
  rw [← List.cons_append, same, List.append_assoc, List.append_assoc, ← same']
  rfl

theorem flatMap {α : Type} {docs : List α} {f : α → List Doc}
    (h : ∀ a ∈ docs, Fresh n (Doc.atomsAll n (f a))) : Fresh n (Doc.atomsAll n (docs.flatMap f)) := by
  induction docs with
  | nil => exact nil
  | cons a docs ih =>
    obtain ⟨here, after⟩ := List.forall_mem_cons.1 h
    rw [List.flatMap_cons, Doc.atomsAll_append]
    exact here.append (ih after)

theorem commentDocs (comments : List Comment) : Fresh n (Doc.atomsAll n (o.commentDocs comments)) :=
  flatMap fun line _ => snoc [.text (o.commentLine line)]

theorem sigDocs (depth : Nat) (sigs : List Sig) : Fresh n (Doc.atomsAll n (o.sigDocs depth sigs)) :=
  flatMap fun s _ => snoc ((s.doc o depth).atoms n)

theorem locationDocs (node : Node) : Fresh n (Doc.atomsAll n (o.locationDocs node)) := by
  rw [PrintOptions.locationDocs]
  split
  · split
    · exact snoc [_]
    · exact nil
  · exact nil

theorem strictnessDocs (level : Option String) : Fresh n (Doc.atomsAll n (o.strictnessDocs level)) := by
  cases level with
  | none => exact nil
  | some level => exact snoc [_, .line n]

end Fresh

/-- After a line break to the column of `depth` the pieces hold a signature that stands on a line of
    its own, at the column of the depth that it is printed with. Nothing else depends on it. -/
def Surrounds (o : PrintOptions) (depth : Nat) (pieces : Sig → List Atom) : Prop :=
  ∃ before after own, ∀ s, .line (depth * o.indentWidth) :: pieces s =
    before ++ .line (own * o.indentWidth) ::
      ((s.doc o own).atoms (own * o.indentWidth) ++ .line (own * o.indentWidth) :: after)

namespace Surrounds

variable {depth : Nat} {pieces : Sig → List Atom} {as : List Atom}

theorem here (after : List Atom) : Surrounds o depth fun s =>
    (s.doc o depth).atoms (depth * o.indentWidth) ++ .line (depth * o.indentWidth) :: after :=
  ⟨[], after, depth, fun _ => rfl⟩

theorem congr {pieces' : Sig → List Atom} (h : Surrounds o depth pieces)
    (same : ∀ s, pieces' s = pieces s) : Surrounds o depth pieces' :=
  (funext same : pieces' = pieces) ▸ h

theorem append (h : Surrounds o depth pieces) (as : List Atom) :
    Surrounds o depth fun s => pieces s ++ as := by
  obtain ⟨before, after, own, split⟩ := h
  refine ⟨before, after ++ as, own, fun s => ?_⟩
  rw [← List.cons_append, split s]
  simp

theorem prepend (h : Surrounds o depth pieces) (fresh : Fresh (depth * o.indentWidth) as) :
    Surrounds o depth fun s => as ++ pieces s := by
  obtain ⟨before, after, own, split⟩ := h
  obtain ⟨before', same⟩ := fresh
  refine ⟨before' ++ before, after, own, fun s => ?_⟩
  rw [← List.cons_append, same, List.append_assoc, List.singleton_append, split s, List.append_assoc]

/-- A line break to the column of another depth comes before the pieces. -/
theorem nest {outer : Nat} (h : Surrounds o depth pieces) (as : List Atom) :
    Surrounds o outer fun s => as ++ .line (depth * o.indentWidth) :: pieces s := by
  obtain ⟨before, after, own, split⟩ := h
  refine ⟨.line (outer * o.indentWidth) :: as ++ before, after, own, fun s => ?_⟩
  show .line (outer * o.indentWidth) :: as ++ .line (depth * o.indentWidth) :: pieces s = _
  rw [split s, List.append_assoc]

end Surrounds

/-! ## Other signatures in the same place -/

/-- The node with other signatures. -/
def Node.withSigs (sigs : List Sig) (n : Node) : Node :=
  { n with decl := n.decl.withSigs sigs }

namespace Node

variable {n : Node} {sigs : List Sig}

theorem withSigs_sigs (n : Node) : n.withSigs n.sigs = n := by
  obtain ⟨decl, comments, loc⟩ := n
  cases decl <;> rfl

/-- The signatures are printed one after the other before the rest of the declaration. -/
theorem leafDocs_withSigs (signed : n.sigs ≠ []) : ∃ rest : List Doc, ∀ depth sigs,
    o.leafDocs depth (n.withSigs sigs).decl = o.sigDocs depth sigs ++ rest := by
  obtain ⟨decl, comments, loc⟩ := n
  cases decl with
  | method m => exact ⟨[o.methodDoc m], fun _ _ => rfl⟩
  | attr a => exact ⟨[o.attributeDoc a], fun _ _ => rfl⟩
  | _ => exact absurd rfl signed

theorem isScope_withSigs (signed : n.sigs ≠ []) : (n.withSigs sigs).isScope = false := by
  obtain ⟨decl, comments, loc⟩ := n
  cases decl with
  | method m => rfl
  | attr a => rfl
  | _ => exact absurd rfl signed

end Node

namespace Tree

variable {t : Tree} {id : NodeId}

/-- The tree with other signatures of one node. -/
def withSigs (t : Tree) (id : NodeId) (sigs : List Sig) : Tree :=
  t.setNode id ((t.node id).withSigs sigs)

theorem lt_size_of_sigs (signed : (t.node id).sigs ≠ []) : id < t.size := by
  by_contra outside
  rw [node, slot_of_size_le (Nat.le_of_not_lt outside)] at signed
  exact signed rfl

theorem node_withSigs (inside : id < t.size) (sigs : List Sig) (i : NodeId) :
    (t.withSigs id sigs).node i = if i = id then (t.node id).withSigs sigs else t.node i :=
  node_setNode inside _ i

theorem Linked.withSigs (h : t.Linked) (id : NodeId) (sigs : List Sig) : (t.withSigs id sigs).Linked :=
  h.setNode id _

/-- With its own signatures the tree is as it was. -/
theorem withSigs_sigs (inside : id < t.size) : t.withSigs id (t.node id).sigs = t := by
  refine ext_slots rfl (size_setNode _ _) fun i _ => ?_
  rw [Tree.withSigs, Node.withSigs_sigs, setNode, slot_modifySlot inside]
  split
  · next same =>
    subst same
    rfl
  · rfl

/-- A statement is the same if the node does not stand in it. -/
theorem Linked.outline_withSigs (h : t.Linked) (inside : id < t.size) (sigs : List Sig) {x : NodeId}
    (apart : x ∉ t.lineage id) : (t.withSigs id sigs).outline x = t.outline x := by
  induction x using h.descent.induction with
  | _ x ih =>
    have other : x ≠ id := fun same => apart (same ▸ h.mem_lineage_self id)
    rw [(h.withSigs id sigs).outline_eq, h.outline_eq, node_withSigs inside, if_neg other,
      Tree.withSigs, body_setNode]
    congr 1
    refine List.map_congr_left fun child listed => ih child listed fun around => apart ?_
    exact h.parent_mem_lineage around ((h.parent_iff child x).2 listed)

end Tree

/-! ## Statements and files around a signature -/

/-- The pieces of a body around one of its statements. -/
theorem atomsAll_bodyDocs (depth n : Nat) (front : List Outline) (statement : Outline)
    (back : List Outline) : Doc.atomsAll n (o.bodyDocs depth (front ++ statement :: back)) =
      Doc.atomsAll n (o.bodyDocs depth front) ++ .line n ::
        ((o.statementDoc depth statement).atoms n ++ Doc.atomsAll n (o.bodyDocs depth back)) := by
  rw [bodyDocs_eq, bodyDocs_eq, bodyDocs_eq, List.flatMap_append, Doc.atomsAll_append,
    List.flatMap_cons, Doc.atomsAll_append]
  simp [Doc.atomsAll, Doc.atoms]

namespace Surrounds

variable {node : Node} {statement : Sig → Outline}

/-- A declaration around one of its signatures. -/
theorem leaf (signed : node.sigs ≠ []) (earlier later : List Sig)
    (own : ∀ s, (statement s).node = node.withSigs (earlier ++ s :: later)) (depth : Nat) :
    Surrounds o depth fun s =>
      (o.statementDoc depth (statement s)).atoms (depth * o.indentWidth) := by
  obtain ⟨rest, leaf⟩ := node.leafDocs_withSigs (o := o) signed
  refine ((here (Doc.atomsAll (depth * o.indentWidth) (o.sigDocs depth later ++ rest))).prepend
    ((Fresh.commentDocs (o := o) node.comments).append
      (Fresh.sigDocs (o := o) depth earlier))).congr fun s => ?_
  have own := own s
  cases made : statement s with
  | mk n body =>
    rw [made] at own
    obtain rfl : n = node.withSigs (earlier ++ s :: later) := own
    rw [Reader.statementDoc_leaf (Node.isScope_withSigs signed), leaf]
    simp [Node.withSigs, PrintOptions.sigDocs, Doc.atoms, Doc.atomsAll]

/-- A scope around a statement adds one level to the depth and to the indentation, and a file around
    it adds none to either. -/
theorem scope {scope : Scope} (opens : node.decl = .scope scope)
    (inner : ∀ depth, Surrounds o depth fun s =>
      (o.statementDoc depth (statement s)).atoms (depth * o.indentWidth))
    (front back : List Outline) (depth : Nat) : Surrounds o depth fun s =>
      (o.statementDoc depth (.mk node (front ++ statement s :: back))).atoms
        (depth * o.indentWidth) := by
  by_cases file : scope.kind = .root
  · have later := (inner depth).append (Doc.atomsAll (depth * o.indentWidth) (o.bodyDocs depth back))
    cases front with
    | nil =>
      refine (later.prepend (Fresh.commentDocs (o := o) node.comments)).congr fun s => ?_
      rw [Reader.statementDoc_file opens file, Doc.atoms, Doc.atomsAll_append]
      rfl
    | cons first front =>
      refine (later.nest (Doc.atomsAll (depth * o.indentWidth)
        (o.commentDocs node.comments ++ o.statementDoc depth first :: o.bodyDocs depth front))).congr
          fun s => ?_
      rw [Reader.statementDoc_file opens file, Doc.atoms, Doc.atomsAll_append, List.cons_append,
        PrintOptions.bodyDocs, List.tail_cons, Doc.atomsAll, atomsAll_bodyDocs]
      simp [Doc.atomsAll]
  · have level : (depth + 1) * o.indentWidth = depth * o.indentWidth + o.indentWidth :=
      Nat.succ_mul _ _
    have later := (inner (depth + 1)).append
      (Doc.atomsAll ((depth + 1) * o.indentWidth) (o.bodyDocs (depth + 1) back) ++
        [.line (depth * o.indentWidth), .text (o.keyword "end")])
    refine (later.nest
      (Doc.atomsAll (depth * o.indentWidth) (o.commentDocs node.comments ++ o.headerDocs scope) ++
        Doc.atomsAll ((depth + 1) * o.indentWidth) (o.bodyDocs (depth + 1) front))).congr fun s => ?_
    rw [Reader.atoms_scope opens file, if_neg (by simp), atomsAll_bodyDocs, level]
    simp

/-- A whole file around one of its statements. -/
theorem file (inner : Surrounds o 0 fun s => (o.statementDoc 0 (statement s)).atoms 0)
    (located : ∀ s, (statement s).node.loc = node.loc) (level : Option String)
    (front back : List Outline) :
    Surrounds o 0 fun s => (o.fileDoc level (front ++ statement s :: back)).atoms 0 := by
  have locations : ∀ s, o.locationDocs (statement s).node = o.locationDocs node := by
    intro s
    rw [PrintOptions.locationDocs, PrintOptions.locationDocs, located]
  let docs : List Outline → List Doc := fun body => body.flatMap fun statement =>
    o.locationDocs statement.node ++ [o.statementDoc 0 statement, .line]
  have before : Fresh 0 (Doc.atomsAll 0 (o.strictnessDocs (o.strictness <|> level)) ++
      (Doc.atomsAll 0 (docs front) ++ Doc.atomsAll 0 (o.locationDocs node))) := by
    refine (Fresh.strictnessDocs _).append (.append (.flatMap fun statement _ => ?_) (.locationDocs _))
    rw [Doc.atomsAll_append]
    exact (Fresh.locationDocs _).append (.snoc _)
  refine ((inner.append (.line 0 :: Doc.atomsAll 0 (docs back))).prepend (by simpa using before)).congr
    fun s => ?_
  rw [PrintOptions.fileDoc, List.flatMap_append, List.flatMap_cons, locations]
  simp [docs, Doc.atoms, Doc.atomsAll]

end Surrounds

namespace Tree

variable {t : Tree} {id : NodeId}

/-- The statements of a body of which one holds the node. -/
theorem Linked.body_withSigs (h : t.Linked) (inside : id < t.size) {x child : NodeId}
    (listed : child ∈ t.body x) (below : child ∈ t.lineage id) : ∃ front back : List Outline,
      ∀ sigs, ((t.withSigs id sigs).body x).map (t.withSigs id sigs).outline =
        front ++ (t.withSigs id sigs).outline child :: back := by
  obtain ⟨front, back, split⟩ := List.append_of_mem listed
  refine ⟨front.map t.outline, back.map t.outline, fun sigs => ?_⟩
  have distinct := h.nodup x
  rw [split, List.nodup_append, List.nodup_cons] at distinct
  have others : ∀ c ∈ t.body x, c ≠ child → (t.withSigs id sigs).outline c = t.outline c :=
    fun c member other => h.outline_withSigs inside sigs fun around => other <|
      h.lineage_sibling around below ((h.parent_iff c x).2 member) ((h.parent_iff child x).2 listed)
  have body : (t.withSigs id sigs).body x = t.body x := body_setNode id _ x
  rw [body, split, List.map_append, List.map_cons]
  rw [split] at others
  congr 1
  · refine List.map_congr_left fun c member => others c (by simp [member]) ?_
    rintro rfl
    exact distinct.2.2 c member c List.mem_cons_self rfl
  · congr 1
    refine List.map_congr_left fun c member => others c (by simp [member]) ?_
    rintro rfl
    exact distinct.2.1.1 member

/-- Depth and indentation agree from a statement down to the signature inside it. -/
theorem Linked.surrounds_statementDoc (h : t.Linked) (bodies : t.BodiesInScopes)
    (signed : (t.node id).sigs ≠ []) (earlier later : List Sig) {x : NodeId}
    (around : x ∈ t.lineage id) (attached : root ∈ t.lineage x) (depth : Nat) :
    Surrounds o depth fun s =>
      (o.statementDoc depth ((t.withSigs id (earlier ++ s :: later)).outline x)).atoms
        (depth * o.indentWidth) := by
  have inside := lt_size_of_sigs signed
  induction x using h.descent.induction generalizing depth with
  | _ x ih =>
    have outline : ∀ sigs, (t.withSigs id sigs).outline x =
        .mk (if x = id then (t.node id).withSigs sigs else t.node x)
          (((t.withSigs id sigs).body x).map (t.withSigs id sigs).outline) := by
      intro sigs
      rw [(h.withSigs id sigs).outline_eq, node_withSigs inside]
    rcases h.mem_lineage_cases around with rfl | ⟨child, listed, below⟩
    · refine Surrounds.leaf signed earlier later (fun s => ?_) depth
      rw [outline, if_pos rfl]
      rfl
    · have link := (h.parent_iff child x).2 listed
      have other : x ≠ id := by
        rintro rfl
        exact h.not_mem_lineage_of_parent link below
      obtain ⟨scope, opens⟩ := Reader.exists_scope (bodies x attached (List.ne_nil_of_mem listed))
      obtain ⟨front, back, split⟩ := h.body_withSigs inside listed below
      refine (Surrounds.scope opens
        (ih child listed below (h.mem_lineage_of_parent link attached)) front back depth).congr
          fun s => ?_
      rw [outline, if_neg other, split]

theorem Linked.surrounds_fileDoc (h : t.Linked) (bodies : t.BodiesInScopes)
    (attached : id ∈ t.descendants root) (signed : (t.node id).sigs ≠ []) (earlier later : List Sig) :
    Surrounds o 0 fun s => (o.fileDoc t.strictness
      ((t.withSigs id (earlier ++ s :: later)).outline root).body).atoms 0 := by
  have inside := lt_size_of_sigs signed
  rw [h.descendants_eq] at attached
  obtain ⟨child, listed, below⟩ := List.mem_flatMap.1 attached
  have around := h.mem_preorder.1 below
  have top := h.mem_lineage_of_parent ((h.parent_iff child root).2 listed) (h.mem_lineage_self root)
  obtain ⟨front, back, split⟩ := h.body_withSigs inside listed around
  have located : ∀ s, ((t.withSigs id (earlier ++ s :: later)).outline child).node.loc =
      (t.node child).loc := by
    intro s
    rw [(h.withSigs id _).outline_eq, Outline.node, node_withSigs inside]
    split
    · next same => exact same ▸ rfl
    · rfl
  have inner := h.surrounds_statementDoc (o := o) bodies signed earlier later around top 0
  rw [Nat.zero_mul] at inner
  refine (Surrounds.file inner located t.strictness front back).congr fun s => ?_
  rw [(h.withSigs id _).outline_eq, Outline.body, split]

end Tree

/-- A signature is printed on one line if and only if no parameter of its first list has a comment and
    the line with the columns before it is not longer than the limit; if not, it is printed as a block.
    It stands on lines of its own, whatever it is: nothing else in the text depends on it. -/
theorem signatures_keep_to_the_line_limit {t : Tree} (h : t.Linked) (bodies : t.BodiesInScopes)
    {o : PrintOptions} {limit : Nat} (uncoloured : o.colorize = false)
    (limited : o.maxLineLength = some limit) {id : NodeId} (attached : id ∈ t.descendants Tree.root)
    {earlier later : List Sig} {s : Sig} (owned : (t.node id).sigs = earlier ++ s :: later) :
    ∃ before after column, (before = "" ∨ before.toList.getLast? = some '\n') ∧
      (s.HasPrintedOp → t.render o = before ++ s.printedAt o limit column ++ "\n" ++ after) ∧
      (∀ s' : Sig, s'.HasPrintedOp → (t.withSigs id (earlier ++ s' :: later)).render o =
        before ++ s'.printedAt o limit column ++ "\n" ++ after) ∧
      ((∀ x ∈ s.stripped.texts, '\n' ∉ x.toList) → ('\n' ∉ (s.printedAt o limit column).toList ↔
        s.hasParamComments = false ∧ (s.line column).length ≤ limit)) := by
  have signed : (t.node id).sigs ≠ [] := by simp [owned]
  obtain ⟨front, after, depth, pieces⟩ :=
    h.surrounds_fileDoc (o := o) bodies attached signed earlier later
  -- The text before the signature comes after a line break that the file does not have.
  obtain ⟨text, ends, starts⟩ : ∃ text : List Char, (text = [] ∨ text.getLast? = some '\n') ∧
      lay none front ++ ['\n'] = '\n' :: text := by
    cases front with
    | nil => exact ⟨[], .inl rfl, rfl⟩
    | cons a as =>
      obtain rfl : _ = a := (List.cons.inj (pieces s)).1
      exact ⟨lay (some _) as ++ ['\n'], .inr (by simp), by rw [lay_line]; rfl⟩
  let rest := lay (some (depth * o.indentWidth)) after
  have printed : ∀ s' : Sig, s'.HasPrintedOp → (t.withSigs id (earlier ++ s' :: later)).render o =
      String.ofList text ++ s'.printedAt o limit (depth * o.indentWidth) ++ "\n" ++
        String.ofList rest := by
    intro s' shown
    have lines := congrArg (lay none) (pieces s')
    rw [lay_line, lay_append_line, Nat.zero_mul, lay_some_zero,
      Sig.lay_doc uncoloured limited shown, lay_line] at lines
    have whole : '\n' :: ((t.withSigs id (earlier ++ s' :: later)).render o).toList =
        '\n' :: text ++ ((s'.printedAt o limit (depth * o.indentWidth)).toList ++ '\n' :: rest) := by
      rw [← starts, List.append_assoc, Tree.render, Doc.toList_render]
      exact lines
    apply String.toList_injective
    rw [(List.cons.inj whole).2]
    simp
  refine ⟨String.ofList text, String.ofList rest, depth * o.indentWidth, ?_, fun shown => ?_,
    printed, fun lacks => ?_⟩
  · rcases ends with rfl | ends
    · exact .inl rfl
    · exact .inr (by rwa [String.toList_ofList])
  · have same := printed s shown
    rwa [← owned, Tree.withSigs_sigs (Tree.lt_size_of_sigs signed)] at same
  · exact Sig.printedAt_line_iff lacks limit _

theorem bodiesInScopes_nestedFile : nestedFile.BodiesInScopes :=
  Tree.bodiesInScopes_of_slots (by decide)

theorem signatures_keep_to_the_line_limit_nestedFile :
    nestedFile.Linked ∧ nestedFile.BodiesInScopes ∧ 2 ∈ nestedFile.descendants Tree.root ∧
      ∃ s before after column, (nestedFile.node 2).sigs = [s] ∧ s.HasPrintedOp ∧
        nestedFile.render { maxLineLength := some 14 } =
          before ++ s.printedAt { maxLineLength := some 14 } 14 column ++ "\n" ++ after ∧
        (nestedFile.withSigs 2 [{ ops := [.void] }]).render { maxLineLength := some 14 } =
          before ++ Sig.printedAt { maxLineLength := some 14 } 14 column { ops := [.void] } ++ "\n" ++
            after := by
  have linked : nestedFile.Linked := Tree.linked_ofOutlines _ _
  have attached : 2 ∈ nestedFile.descendants Tree.root := by decide
  obtain ⟨s, owned, op, printed⟩ : ∃ s, (nestedFile.node 2).sigs = [] ++ s :: [] ∧ s.HasPrintedOp :=
    ⟨_, rfl, .void, by decide, by decide⟩
  obtain ⟨before, after, column, -, own, other, -⟩ := signatures_keep_to_the_line_limit linked
    bodiesInScopes_nestedFile (o := { maxLineLength := some 14 }) rfl rfl attached owned
  exact ⟨linked, bodiesInScopes_nestedFile, attached, s, before, after, column, owned, ⟨op, printed⟩,
    own ⟨op, printed⟩, other _ ⟨.void, by decide, by decide⟩⟩

end InterfaceFile
