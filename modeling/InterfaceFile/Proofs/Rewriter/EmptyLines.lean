import InterfaceFile.Lint.Check
import InterfaceFile.Proofs.Merge.Steps
import InterfaceFile.Proofs.Rewriter.Arranged

/-!
# Empty lines say nothing

Spacing moves empty lines, makes new ones and lets others go. Whoever reads a spaced tree and passes
over empty lines finds the same statements in the same order under the same names. Merging and
checking read trees in this way, merging through nested statements, checking through the walk down
from the root.
-/

namespace InterfaceFile

/-! ## Merging passes over empty lines -/

namespace Outline

mutual

/-- The statement without the empty lines inside it. -/
def dense : Outline → Outline
  | mk node body => mk node (denseAll body)

/-- The statements without empty lines, at every depth. -/
def denseAll : List Outline → List Outline
  | [] => []
  | o :: rest => if o.node.isBlank then denseAll rest else o.dense :: denseAll rest

end

@[simp]
theorem node_dense (o : Outline) : o.dense.node = o.node := by
  cases o with
  | mk node body => rw [dense, Outline.node, Outline.node]

theorem body_dense (o : Outline) : o.dense.body = denseAll o.body := by
  cases o with
  | mk node body => rw [dense, Outline.body, Outline.body]

/-- Trees are read without empty lines body by body. -/
theorem denseAll_map {α : Type} (f : α → Outline) (xs : List α) :
    denseAll (xs.map f) = (xs.filter fun x => !(f x).node.isBlank).map fun x => (f x).dense := by
  induction xs with
  | nil => rfl
  | cons x xs ih =>
    rw [List.map_cons, denseAll, ih]
    cases blank : (f x).node.isBlank <;> simp [blank]

end Outline

namespace Node

variable {n : Node}

theorem isScope_of_isBlank (blank : n.isBlank = true) : n.isScope = false := by
  rw [isBlank] at blank
  rw [isScope, scope?]
  cases decl : n.decl <;> simp_all

theorem sectionMarker?_of_isBlank (blank : n.isBlank = true) : n.sectionMarker? = none := by
  rw [isBlank] at blank
  rw [sectionMarker?]
  cases decl : n.decl <;> simp_all

end Node

mutual

theorem mergeStatement_dense (keep : Keep) (enclosing : String) (level : Visibility) :
    ∀ (o : Outline) (m : Merging),
      mergeStatement keep enclosing level o.dense m = mergeStatement keep enclosing level o m
  | .mk node body, m => by
    have inside : ∀ name, mergeBody keep name .pub (Outline.denseAll body) =
        mergeBody keep name .pub body :=
      fun name => funext (mergeBody_dense keep name .pub body)
    simp only [Outline.dense, mergeStatement, inside]

/-- Merging statements is merging them without empty lines. -/
theorem mergeBody_dense (keep : Keep) (enclosing : String) (level : Visibility) :
    ∀ (os : List Outline) (m : Merging),
      mergeBody keep enclosing level (Outline.denseAll os) m = mergeBody keep enclosing level os m
  | [], m => by rw [Outline.denseAll]
  | o :: rest, m => by
    cases blank : o.node.isBlank with
    | true =>
      rw [Outline.denseAll, if_pos blank, mergeBody_dense keep enclosing level rest, mergeBody,
        Node.sectionMarker?_of_isBlank blank, mergeStatement_of_isBlank keep enclosing level blank]
    | false =>
      rw [Outline.denseAll, if_neg (by simp [blank]), mergeBody, mergeBody, Outline.node_dense]
      cases o.node.sectionMarker? with
      | some level => exact mergeBody_dense keep enclosing level rest m
      | none =>
        rw [mergeBody_dense keep enclosing level rest, mergeStatement_dense keep enclosing level o m]

end

/-! ## What a spaced tree keeps -/

namespace Tree

variable {t u : Tree} {id : NodeId}

/-- Of what stands under the root only scopes have bodies. -/
def BodiesInScopes (t : Tree) : Prop :=
  ∀ id, root ∈ t.lineage id → t.body id ≠ [] → (t.node id).isScope = true

/-- What has no slot has no body. -/
theorem bodiesInScopes_of_slots
    (opens : ∀ id < t.size, t.body id ≠ [] → (t.node id).isScope = true) : t.BodiesInScopes := by
  intro id _ nonempty
  have inside : id < t.size := by
    by_contra outside
    exact nonempty (body_of_size_le (Nat.le_of_not_lt outside))
  exact opens id inside nonempty

/-- An empty line under the root has nothing inside. -/
theorem BodiesInScopes.body_of_isBlank (bodies : t.BodiesInScopes) (attached : root ∈ t.lineage id)
    (blank : (t.node id).isBlank = true) : t.body id = [] := by
  by_contra nonempty
  have opens := bodies id attached nonempty
  rw [Node.isScope_of_isBlank blank] at opens
  cases opens

/-- Passing over empty lines, one by one or all at once. -/
theorem statements_flatMap {ids : List NodeId} {f : NodeId → List NodeId}
    (hollow : ∀ c ∈ ids, (t.node c).isBlank = true → t.statements (f c) = []) :
    t.statements (ids.flatMap f) = (t.statements ids).flatMap fun c => t.statements (f c) := by
  induction ids with
  | nil => rfl
  | cons c ids ih =>
    obtain ⟨here, after⟩ := List.forall_mem_cons.1 hollow
    have split : t.statements ((c :: ids).flatMap f) =
        t.statements (f c) ++ t.statements (ids.flatMap f) := by
      rw [List.flatMap_cons, statements, List.filter_append]
      rfl
    rw [split, ih after]
    cases blank : (t.node c).isBlank with
    | true =>
      rw [here blank]
      simp [statements, blank]
    | false => simp [statements, blank]

namespace SpacedAt

/-- The bodies list the same statements. -/
theorem statements_body (spaced : SpacedAt t u t.scopes) (id : NodeId) :
    t.statements (u.body id) = t.statements (t.body id) := by
  by_cases turned : id ∈ t.scopes
  · exact (spaced.spaced id turned).statements_eq
  · rw [spaced.kept id turned]

/-- What a body lists it has listed before, or it is new. -/
theorem mem_body_cases (spaced : SpacedAt t u t.scopes) {c : NodeId} (listed : c ∈ u.body id) :
    c ∈ t.body id ∨ t.size ≤ c := by
  by_cases turned : id ∈ t.scopes
  · obtain ⟨new, fresh, -, eq⟩ := spaced.spaced id turned
    exact (mem_fillGaps_cases (eq ▸ listed)).imp_right (fresh c)
  · exact .inl (spaced.kept id turned ▸ listed)

/-- The empty lines of a spaced tree have nothing inside either. -/
theorem body_of_isBlank (h : t.Linked) (bodies : t.BodiesInScopes) (spaced : SpacedAt t u t.scopes)
    (attached : root ∈ t.lineage id) {c : NodeId} (listed : c ∈ u.body id)
    (blank : (t.node c).isBlank = true) : u.body c = [] := by
  have other : c ∉ t.scopes := by
    intro member
    have opens := (h.mem_scopes.1 member).2
    rw [Node.isScope_of_isBlank blank] at opens
    cases opens
  rw [spaced.kept c other]
  rcases spaced.mem_body_cases listed with old | fresh
  · exact bodies.body_of_isBlank (h.root_mem_lineage old attached) blank
  · exact body_of_size_le fresh

/-- Read without empty lines, a spaced tree says what the tree says. -/
theorem dense_outline (h : t.Linked) (spaced : SpacedAt t u t.scopes) (id : NodeId) :
    (u.outline id).dense = (t.outline id).dense := by
  induction id using h.descent.induction with
  | _ id ih =>
    have named : ∀ {v : Tree}, v.Linked → ∀ c, (v.outline c).node = v.node c := by
      intro v linked c
      rw [linked.outline_eq, Outline.node]
    have listed : ((u.body id).filter fun c => !(u.outline c).node.isBlank) =
        (t.body id).filter fun c => !(t.outline c).node.isBlank := by
      simp only [named spaced.linked, named h, spaced.node]
      exact spaced.statements_body id
    rw [spaced.linked.outline_eq, h.outline_eq, Outline.dense, Outline.dense, spaced.node,
      Outline.denseAll_map, Outline.denseAll_map, listed]
    congr 1
    exact List.map_congr_left fun c member => ih c (List.mem_of_mem_filter member)

/-- The walks down from a node pass the same statements in the same order. -/
theorem statements_preorder (h : t.Linked) (bodies : t.BodiesInScopes)
    (spaced : SpacedAt t u t.scopes) (attached : root ∈ t.lineage id) :
    t.statements (u.preorder id) = t.statements (t.preorder id) := by
  induction id using h.descent.induction with
  | _ id ih =>
    -- An empty line adds nothing but itself to either walk.
    have hollow : ∀ c, (t.node c).isBlank = true → t.statements [c] = [] := by
      intro c blank
      simp [statements, blank]
    have inside : t.statements ((u.body id).flatMap u.preorder) =
        t.statements ((t.body id).flatMap t.preorder) := by
      rw [statements_flatMap, statements_flatMap, spaced.statements_body]
      · exact List.flatMap_congr fun c member => by
          have listed := mem_of_mem_statements member
          exact ih c listed (h.root_mem_lineage listed attached)
      · intro c listed blank
        rw [h.preorder_eq, bodies.body_of_isBlank (h.root_mem_lineage listed attached) blank]
        exact hollow c blank
      · intro c listed blank
        rw [spaced.linked.preorder_eq, spaced.body_of_isBlank h bodies attached listed blank]
        exact hollow c blank
    have first : ∀ rest, t.statements (id :: rest) = t.statements [id] ++ t.statements rest :=
      fun rest => List.filter_append [id] rest
    rw [spaced.linked.preorder_eq, h.preorder_eq, first, inside, ← first]

theorem statements_descendants (h : t.Linked) (bodies : t.BodiesInScopes)
    (spaced : SpacedAt t u t.scopes) :
    t.statements (u.descendants root) = t.statements (t.descendants root) := by
  have whole := spaced.statements_preorder h bodies (h.mem_lineage_self root)
  rw [spaced.linked.preorder_eq_descendants, h.preorder_eq_descendants, statements, statements,
    List.filter_cons, List.filter_cons] at whole
  split at whole
  · exact List.tail_eq_of_cons_eq whole
  · exact whole

/-- The way up from a statement is the same. -/
theorem lineage_eq (h : t.Linked) (bodies : t.BodiesInScopes) (spaced : SpacedAt t u t.scopes)
    (attached : root ∈ t.lineage id) (proper : (t.node id).isBlank = false) :
    u.lineage id = t.lineage id := by
  induction id using h.acyclic.induction with
  | _ id ih =>
    have links : ∀ s, u.parent id = some s ↔ t.parent id = some s := by
      intro s
      have same := congrArg (id ∈ ·) (spaced.statements_body s)
      simpa [statements, proper, spaced.linked.parent_iff, h.parent_iff] using same
    have link : u.parent id = t.parent id := Option.ext links
    rw [spaced.linked.lineage_eq, h.lineage_eq, link]
    cases around : t.parent id with
    | none => rfl
    | some s =>
      have listed := (h.parent_iff id s).1 around
      have attached' : root ∈ t.lineage s := by
        rw [h.lineage_eq, around] at attached
        rcases List.mem_cons.1 attached with top | above
        · have none := h.root_parent
          rw [top, around] at none
          cases none
        · exact above
      have opens := bodies s attached' (List.ne_nil_of_mem listed)
      have proper' : (t.node s).isBlank = false := by
        by_contra blank
        rw [Node.isScope_of_isBlank (by simpa using blank)] at opens
        cases opens
      exact congrArg (id :: ·) (ih s around attached' proper')

theorem enclosingName_eq (h : t.Linked) (bodies : t.BodiesInScopes)
    (spaced : SpacedAt t u t.scopes) (attached : root ∈ t.lineage id)
    (proper : (t.node id).isBlank = false) : u.enclosingName id = t.enclosingName id := by
  simp only [enclosingName, spaced.lineage_eq h bodies attached proper, spaced.node]

end SpacedAt

end Tree

/-! ## Checking passes over empty lines -/

namespace DeclIndex

variable {t u : Tree}

/-- The entries that are no empty lines. -/
def proper (entries : List DeclEntry) : List DeclEntry :=
  entries.filter fun e => !e.node.isBlank

/-- A statement under the root is indexed as before. -/
theorem proper_treeNodes (h : t.Linked) (bodies : t.BodiesInScopes)
    (spaced : t.SpacedAt u t.scopes) (position : Nat) :
    proper (treeNodes position u) = proper (treeNodes position t) := by
  have listed : ∀ v : Tree, (∀ i, v.node i = t.node i) → proper (treeNodes position v) =
      (t.statements (v.descendants Tree.root)).map fun id =>
        { tree := position, id, node := v.node id, name := v.qualifiedName id } := by
    intro v node
    simp only [proper, treeNodes, List.filter_map, Function.comp_def, Tree.statements, node]
  rw [listed u spaced.node, listed t fun _ => rfl, spaced.statements_descendants h bodies]
  refine List.map_congr_left fun id member => ?_
  obtain ⟨below, present⟩ := List.mem_filter.1 member
  have attached := (h.mem_descendants.1 below).1
  rw [Tree.qualifiedName, Tree.qualifiedName, spaced.node,
    spaced.enclosingName_eq h bodies attached (by simpa using present)]

/-- The names that are declared are the same, and so are the declarations of each. -/
theorem treeDecls_eq (h : t.Linked) (bodies : t.BodiesInScopes)
    (spaced : t.SpacedAt u t.scopes) (position : Nat) :
    treeDecls position u = treeDecls position t := by
  have declares : ∀ id, (t.node id).declaresName = true → (!(t.node id).isBlank) = true := by
    intro id named
    rw [Node.declaresName] at named
    rw [Node.isBlank]
    cases decl : (t.node id).decl <;> simp_all
  have listed : (u.descendants Tree.root).filter (fun id => (t.node id).declaresName) =
      (t.descendants Tree.root).filter fun id => (t.node id).declaresName := by
    have same := congrArg (List.filter fun id => (t.node id).declaresName)
      (spaced.statements_descendants h bodies)
    simpa only [Tree.statements, List.filter_filter, Bool.and_eq_left_iff_imp.2 (declares _)] using same
  simp only [treeDecls, spaced.node, listed]
  refine List.flatMap_congr fun id member => ?_
  obtain ⟨below, named⟩ := List.mem_filter.1 member
  have attached := (h.mem_descendants.1 below).1
  have present : (t.node id).isBlank = false := by simpa using declares id named
  rw [Tree.declaredNames, Tree.declaredNames, spaced.node,
    spaced.enclosingName_eq h bodies attached present]

/-- Trees that are indexed alike one by one are indexed alike together. -/
theorem flatMap_zipIdx_congr {α : Type} {f : Tree → Nat → List α} {ts us : List Tree}
    (same : List.Forall₂ (fun t u => ∀ position, f u position = f t position) ts us) (start : Nat) :
    ((us.zipIdx start).flatMap fun (t, position) => f t position) =
      (ts.zipIdx start).flatMap fun (t, position) => f t position := by
  induction same generalizing start with
  | nil => rfl
  | cons here _ ih =>
    simp only [List.zipIdx_cons, List.flatMap_cons, here, ih]

end DeclIndex

namespace Check

variable {e : DeclEntry}

theorem mixinProblems_of_isBlank (targets : List String) (blank : e.node.isBlank = true) :
    mixinProblems targets e = [] := by
  rw [Node.isBlank] at blank
  rw [mixinProblems]
  cases decl : e.node.decl <;> simp_all

theorem documentationProblem?_of_isBlank (blank : e.node.isBlank = true) :
    documentationProblem? e = none := by
  have closed := Node.isScope_of_isBlank blank
  rw [Node.isScope, Option.isSome_eq_false_iff, Option.isNone_iff_eq_none] at closed
  rw [documentationProblem?, closed]

theorem signatureProblem?_of_isBlank (blank : e.node.isBlank = true) :
    signatureProblem? e = none := by
  rw [Node.isBlank] at blank
  rw [signatureProblem?, takesSigs]
  cases decl : e.node.decl <;> simp_all

/-- A rule that has nothing to say on empty lines need not look at them. -/
theorem flatMap_proper {β : Type} {f : DeclEntry → List β}
    (silent : ∀ e, e.node.isBlank = true → f e = []) (entries : List DeclEntry) :
    (DeclIndex.proper entries).flatMap f = entries.flatMap f := by
  induction entries with
  | nil => rfl
  | cons e entries ih =>
    cases blank : e.node.isBlank with
    | true => simpa [DeclIndex.proper, blank, silent e blank] using ih
    | false => simpa [DeclIndex.proper, blank] using ih

/-- The problems of a rule come from the declared names and from the nodes that are no empty lines. -/
theorem problems_congr {ix ix' : DeclIndex}
    (nodes : DeclIndex.proper ix'.nodes = DeclIndex.proper ix.nodes) (groups : ix'.groups = ix.groups)
    (check : Check) : problems ix' check = problems ix check := by
  have alike : ∀ {β : Type} (f : DeclEntry → List β), (∀ e, e.node.isBlank = true → f e = []) →
      ix'.nodes.flatMap f = ix.nodes.flatMap f := by
    intro β f silent
    rw [← flatMap_proper silent, nodes, flatMap_proper silent]
  cases check with
  | duplicates => rw [problems, problems, groups]
  | forbiddenMixins targets => exact alike _ fun e => mixinProblems_of_isBlank targets
  | requireDocumentation =>
    simp only [problems, List.filterMap_eq_flatMap_toList]
    exact alike _ fun e blank => by rw [documentationProblem?_of_isBlank blank]; rfl
  | requireSignature =>
    simp only [problems, List.filterMap_eq_flatMap_toList]
    exact alike _ fun e blank => by rw [signatureProblem?_of_isBlank blank]; rfl

end Check

/-! ## Trees with other spacing -/

/-- The second list has the trees of the first, some of them spaced. -/
def SomeSpaced (ts us : List Tree) : Prop :=
  List.Forall₂ (fun t u => u = t ∨ t.space = .ok u) ts us

theorem SomeSpaced.imp {R : Tree → Tree → Prop} {ts us : List Tree} (h : SomeSpaced ts us)
    (fine : ∀ t ∈ ts, t.Linked ∧ t.BodiesInScopes) (same : ∀ t, R t t)
    (spaced : ∀ t u, t.Linked → t.BodiesInScopes → t.space = .ok u → t.SpacedAt u t.scopes → R t u) :
    List.Forall₂ R ts us := by
  induction h with
  | nil => exact .nil
  | @cons t u _ _ head _ ih =>
    obtain ⟨⟨linked, bodies⟩, rest⟩ := List.forall_mem_cons.1 fine
    refine .cons ?_ (ih rest)
    rcases head with rfl | run
    · exact same u
    · obtain ⟨u', run', at_scopes⟩ := linked.space_ok
      obtain rfl : u' = u := Except.ok.inj (run'.symm.trans run)
      exact spaced t u' linked bodies run at_scopes

/-- The index of spaced trees differs in empty lines only. -/
theorem SomeSpaced.validate_eq {ts us : List Tree} (h : SomeSpaced ts us)
    (fine : ∀ t ∈ ts, t.Linked ∧ t.BodiesInScopes) (checks : List Check) :
    validate us checks = validate ts checks := by
  have nodes : DeclIndex.proper (DeclIndex.ofTrees us).nodes =
      DeclIndex.proper (DeclIndex.ofTrees ts).nodes := by
    have same := h.imp fine (R := fun t u => ∀ position,
      DeclIndex.proper (DeclIndex.treeNodes position u) =
        DeclIndex.proper (DeclIndex.treeNodes position t)) (fun _ _ => rfl)
      fun t u linked bodies _ spaced => DeclIndex.proper_treeNodes linked bodies spaced
    have together := DeclIndex.flatMap_zipIdx_congr (f := fun t position =>
      DeclIndex.proper (DeclIndex.treeNodes position t)) same 0
    simpa only [DeclIndex.ofTrees, DeclIndex.proper, List.filter_flatMap] using together
  have groups : (DeclIndex.ofTrees us).groups = (DeclIndex.ofTrees ts).groups := by
    have same := h.imp fine (R := fun t u => ∀ position,
      DeclIndex.treeDecls position u = DeclIndex.treeDecls position t) (fun _ _ => rfl)
      fun t u linked bodies _ spaced => DeclIndex.treeDecls_eq linked bodies spaced
    have together := DeclIndex.flatMap_zipIdx_congr (f := fun t position =>
      DeclIndex.treeDecls position t) same 0
    simp only [DeclIndex.ofTrees, together]
  exact List.flatMap_congr fun check _ => Check.problems_congr nodes groups check

/-- Spaced trees merge as the trees do, to the same tree with the same conflicts. -/
theorem SomeSpaced.merge_eq {ts us : List Tree} (h : SomeSpaced ts us)
    (fine : ∀ t ∈ ts, t.Linked ∧ t.BodiesInScopes) (keep : Keep) :
    Tree.merge keep us = Tree.merge keep ts := by
  have alike := h.imp fine (R := fun t u => u.strictness = t.strictness ∧
      ∀ m, mergeBody keep "" .pub (u.outline Tree.root).body m =
        mergeBody keep "" .pub (t.outline Tree.root).body m) (fun _ => ⟨rfl, fun _ => rfl⟩)
    fun t u linked _ run spaced => ⟨Tree.strictness_space run, fun m => by
      rw [← mergeBody_dense, ← mergeBody_dense keep "" .pub (t.outline Tree.root).body,
        ← Outline.body_dense, ← Outline.body_dense, spaced.dense_outline linked]⟩
  have levels : us.filterMap Tree.strictness = ts.filterMap Tree.strictness := by
    clear h fine
    induction alike with
    | nil => rfl
    | cons head _ ih => simp only [List.filterMap_cons, head.1, ih]
  have bodies : ∀ m, us.foldl (fun m t => mergeBody keep "" .pub (t.outline Tree.root).body m) m =
      ts.foldl (fun m t => mergeBody keep "" .pub (t.outline Tree.root).body m) m := by
    clear h fine levels
    induction alike with
    | nil => exact fun _ => rfl
    | cons head _ ih =>
      intro m
      rw [List.foldl_cons, List.foldl_cons, head.2, ih]
  rw [Tree.merge, Tree.merge, levels, bodies]

/-- Spacing always succeeds, and whether trees are spaced makes no difference to what checks report or
    to what merging gives. -/
theorem spacing_is_invisible {ts us : List Tree} (fine : ∀ t ∈ ts, t.Linked ∧ t.BodiesInScopes)
    (replaced : SomeSpaced ts us) :
    (∀ t ∈ ts, ∃ u, t.space = .ok u) ∧
    (∀ checks, validate us checks = validate ts checks) ∧
    ∀ keep, Tree.merge keep us = Tree.merge keep ts := by
  refine ⟨fun t member => ?_, replaced.validate_eq fine, replaced.merge_eq fine⟩
  obtain ⟨u, run, -⟩ := (fine t member).1.space_ok
  exact ⟨u, run⟩

theorem bodiesInScopes_paddedClass : paddedClass.BodiesInScopes :=
  Tree.bodiesInScopes_of_slots (by decide)

theorem spacing_is_invisible_paddedClass :
    paddedClass.Linked ∧ paddedClass.BodiesInScopes ∧ ∃ u, paddedClass.space = .ok u ∧
      u.body 1 ≠ paddedClass.body 1 ∧ SomeSpaced [paddedClass, paddedClass] [u, paddedClass] ∧
      (∀ checks, validate [u, paddedClass] checks = validate [paddedClass, paddedClass] checks) ∧
      ∀ keep, Tree.merge keep [u, paddedClass] = Tree.merge keep [paddedClass, paddedClass] := by
  have fine : ∀ t ∈ [paddedClass, paddedClass], t.Linked ∧ t.BodiesInScopes := by
    simp [linked_paddedClass, bodiesInScopes_paddedClass]
  obtain ⟨u, run, -⟩ := linked_paddedClass.space_ok
  have replaced : SomeSpaced [paddedClass, paddedClass] [u, paddedClass] :=
    .cons (.inr run) (.cons (.inl rfl) .nil)
  have body : (paddedClass.space.map fun t => t.body 1) = .ok [2, 5, 4] := by decide
  rw [run] at body
  have changed : u.body 1 ≠ paddedClass.body 1 := by
    rw [show u.body 1 = [2, 5, 4] from Except.ok.inj body]
    decide
  obtain ⟨-, checked, merged⟩ := spacing_is_invisible fine replaced
  exact ⟨linked_paddedClass, bodiesInScopes_paddedClass, u, run, changed, replaced, checked, merged⟩

end InterfaceFile
