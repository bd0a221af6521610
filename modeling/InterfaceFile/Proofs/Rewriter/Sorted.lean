import InterfaceFile.Proofs.Rewriter.Sections
import InterfaceFile.Proofs.Tree.Bodies
import InterfaceFile.Proofs.Tree.Built

/-!
# Sorted trees

Sorting a tree sorts the body of every scope from the root down. A step looks at the nodes and at one
body only, so it does not matter in which order the scopes come, and what is sorted stays sorted.
-/

namespace InterfaceFile

namespace Tree

variable {t u : Tree}

/-- Sorting looks at what is declared, and not at comments or locations. -/
theorem sortFrom_congr_decl (same : ∀ i, (u.node i).decl = (t.node i).decl)
    (gathered body : List NodeId) : u.sortFrom gathered body = t.sortFrom gathered body := by
  have run : ∀ ids, u.sortSection ids = t.sortSection ids := by
    intro ids
    simp only [sortSection, SortKey.ofNode, same]
  have blank : ∀ i, (u.node i).isBlank = (t.node i).isBlank := by
    intro i
    rw [Node.isBlank, Node.isBlank, same]
  have marker : ∀ i, (u.node i).isMarker = (t.node i).isMarker := by
    intro i
    rw [Node.isMarker, Node.isMarker, Node.category, Node.category, same]
  induction body generalizing gathered with
  | nil => exact run _
  | cons id body ih => simp only [sortFrom, blank, marker, run, ih]

theorem sortFrom_congr (same : ∀ i, u.node i = t.node i) (gathered body : List NodeId) :
    u.sortFrom gathered body = t.sortFrom gathered body :=
  sortFrom_congr_decl (fun i => congrArg Node.decl (same i)) gathered body

/-- The bodies of the scopes in `done` are sorted, and nothing else has changed. -/
structure SortedAt (t u : Tree) (done : List NodeId) : Prop where
  linked : u.Linked
  size : u.size = t.size
  strictness : u.strictness = t.strictness
  node : ∀ i, u.node i = t.node i
  body : ∀ s, u.body s = if s ∈ done then t.sortedBody s else t.body s

/-- A scope that has had its turn and one that has not are sorted in the same way. -/
theorem SortedAt.sortedBody_eq {done : List NodeId} (h : SortedAt t u done) (scope : NodeId) :
    u.sortedBody scope = t.sortedBody scope := by
  rw [sortedBody, sortFrom_congr h.node, h.body]
  split
  · exact sortFrom_sortedBody scope
  · rfl

theorem SortedAt.step {done : List NodeId} {scope : NodeId} (h : SortedAt t u done)
    (opens : (t.node scope).isScope = true) :
    ∃ u', u.sortScope scope = .ok u' ∧ SortedAt t u' (done ++ [scope]) := by
  have body : ∀ {b : NodeId → List NodeId}, (∀ s, b s = if s = scope then t.sortedBody scope
      else u.body s) → ∀ s, b s = if s ∈ done ++ [scope] then t.sortedBody s else t.body s := by
    intro b eq s
    rw [eq, h.body]
    by_cases same : s = scope
    · simp [same]
    · by_cases before : s ∈ done <;> simp [same, before]
  by_cases sorted : u.sortedBody scope = u.body scope
  · refine ⟨u, if_pos sorted, h.linked, h.size, h.strictness, h.node, body fun s => ?_⟩
    split
    · next same => rw [same, ← sorted, h.sortedBody_eq]
    · rfl
  · have perm := (sortsSections_sortedBody (t := u) scope).perm
    have distinct : (u.sortedBody scope).Nodup :=
      perm.nodup_iff.2 ((h.linked.nodup scope).filter _)
    obtain ⟨u', run, changed⟩ := h.linked.replaceBody_ok (h.node scope ▸ opens) distinct
      fun id listed => .inl ((h.linked.parent_iff id scope).2 (mem_sortedBody.1 listed).1)
    refine ⟨u', (if_neg sorted).trans run, changed.linked, changed.size.trans h.size,
      changed.strictness.trans h.strictness, fun i => (changed.node i).trans (h.node i),
      body fun s => ?_⟩
    rw [changed.body, h.sortedBody_eq]

theorem Linked.sort_ok (h : t.Linked) : ∃ t', t.sort = .ok t' ∧ SortedAt t t' t.scopes := by
  rw [sort]
  apply foldlM_reaches (I := fun done u => SortedAt t u done)
  · intro done scope rest u split sorted
    have listed : scope ∈ t.scopes := by simp [split]
    exact sorted.step (h.mem_scopes.1 listed).2
  · exact ⟨h, rfl, rfl, fun _ => rfl, fun s => by simp⟩

/-- Sorting lists nothing where it was not listed before. -/
theorem SortedAt.mem_scopes {done : List NodeId} (h : t.Linked) (sorted : SortedAt t u done)
    {scope : NodeId} (member : scope ∈ u.scopes) : scope ∈ t.scopes := by
  obtain ⟨attached, opens⟩ := sorted.linked.mem_scopes.1 member
  refine h.mem_scopes.2 ⟨?_, sorted.node scope ▸ opens⟩
  refine h.attached_of_links sorted.linked (P := fun _ => True) ?_ trivial attached
  intro id around _ link
  have listed := (sorted.linked.parent_iff id around).1 link
  rw [sorted.body] at listed
  refine ⟨(h.parent_iff id around).2 ?_, trivial⟩
  split at listed
  · exact (mem_sortedBody.1 listed).1
  · exact listed

/-- A sorted tree stays as it is when it is sorted again. -/
theorem SortedAt.sort_eq (h : t.Linked) (sorted : SortedAt t u t.scopes) : u.sort = .ok u := by
  apply foldlM_eq_self
  intro scope member
  apply if_pos
  rw [sorted.sortedBody_eq, sorted.body, if_pos (sorted.mem_scopes h member)]

theorem markerBefore_congr (same : ∀ i, u.node i = t.node i) (body : List NodeId) (id : NodeId) :
    u.markerBefore body id = t.markerBefore body id := by
  have bare : u.isBareMarker = t.isBareMarker := by
    funext i
    rw [isBareMarker, isBareMarker, same]
  rw [markerBefore, markerBefore, bare]

end Tree

/-- Where the links agree a tree can be sorted, and sorting it once more changes nothing. No node
    changes. Every scope from the root down has its statements in order, section by section, without
    empty lines, and the last bare marker before a statement is the one that it was. Other bodies stay
    as they are. -/
theorem sorting_is_stable_by_sections {t : Tree} (h : t.Linked) :
    ∃ t', t.sort = .ok t' ∧ t'.sort = .ok t' ∧ t'.Linked ∧ t'.size = t.size ∧
      t'.strictness = t.strictness ∧ (∀ i, t'.node i = t.node i) ∧
      (∀ scope ∈ t.scopes, t.SortsSections (t.statements (t.body scope)) (t'.body scope) ∧
        ∀ id ∈ t.body scope, (t.node id).isBlank = false →
          t'.markerBefore (t'.body scope) id = t.markerBefore (t.body scope) id) ∧
      ∀ scope, scope ∉ t.scopes → t'.body scope = t.body scope := by
  obtain ⟨t', run, sorted⟩ := h.sort_ok
  refine ⟨t', run, sorted.sort_eq h, sorted.linked, sorted.size, sorted.strictness, sorted.node,
    fun scope member => ?_, fun scope other => ?_⟩
  · have body : t'.body scope = t.sortedBody scope := by rw [sorted.body, if_pos member]
    rw [body]
    refine ⟨Tree.sortsSections_sortedBody scope, fun id listed proper => ?_⟩
    rw [Tree.markerBefore_congr sorted.node, Tree.markerBefore_sortedBody listed proper]
  · rw [sorted.body, if_neg other]

/-- A class with a private section in which two struct fields stand against the order of names. -/
def sectionedClass : Tree :=
  let t := (Edit.push 0 (.classDef "A" none)).apply .empty
  let t := (Edit.push 1 { decl := .method { name := "d" } }).apply t
  let t := (Edit.push 1 { decl := .const { name := "C" } }).apply t
  let t := (Edit.push 1 { decl := .call { callee := .visibility .priv } }).apply t
  let t := (Edit.push 1 .blank).apply t
  let t := (Edit.push 1 { decl := .call { callee := .structField .prop, args := [":z"] } }).apply t
  (Edit.push 1 { decl := .call { callee := .structField .const, args := [":a"] } }).apply t

theorem sorting_is_stable_by_sections_sectionedClass :
    sectionedClass.Linked ∧ ∃ t', sectionedClass.sort = .ok t' ∧ t'.sort = .ok t' ∧
      t'.body 1 = [3, 2, 4, 6, 7] ∧
      sectionedClass.SortsSections [2, 3, 4, 6, 7] (t'.body 1) ∧
      t'.markerBefore (t'.body 1) 7 = some 4 := by
  have one := Built.empty.edit (.push 0 (.classDef "A" none)) (by decide)
  have two := one.edit (.push 1 { decl := .method { name := "d" } }) (by decide)
  have three := two.edit (.push 1 { decl := .const { name := "C" } }) (by decide)
  have four := three.edit (.push 1 { decl := .call { callee := .visibility .priv } }) (by decide)
  have five := four.edit (.push 1 .blank) (by decide)
  have six := five.edit
    (.push 1 { decl := .call { callee := .structField .prop, args := [":z"] } }) (by decide)
  have linked : sectionedClass.Linked := (six.edit
    (.push 1 { decl := .call { callee := .structField .const, args := [":a"] } })
    (by decide)).linked
  obtain ⟨t', run, again, -, -, -, -, bodies, -⟩ := sorting_is_stable_by_sections linked
  obtain ⟨u, run', sorted⟩ := linked.sort_ok
  cases run.symm.trans run'
  have body : t'.body 1 = [3, 2, 4, 6, 7] := by
    rw [sorted.body, if_pos (by decide)]
    show sectionedClass.sortSection [2, 3] ++ 4 :: sectionedClass.sortSection [6, 7] = _
    rw [Tree.sortSection_pair, Tree.sortSection_pair]
    decide
  obtain ⟨sections, markers⟩ := bodies 1 (by decide)
  exact ⟨linked, t', run, again, body, sections,
    (markers 7 (by decide) (by decide)).trans (by decide)⟩

/-- Two constants under a root that has become a constant itself. -/
def constantRoot : Tree :=
  let t := (Edit.push 0 { decl := .const { name := "B" } }).apply .empty
  let t := (Edit.push 0 { decl := .const { name := "A" } }).apply t
  (Edit.setNode 0 { decl := .const { name := "R" } }).apply t

/-- The statements under a root that is no scope are not sorted. -/
theorem other_root_is_not_sorted :
    constantRoot.Linked ∧ ∃ t', constantRoot.sort = .ok t' ∧
      ¬ constantRoot.SortsSections (constantRoot.statements (constantRoot.body Tree.root))
        (t'.body Tree.root) := by
  have one := Built.empty.edit (.push 0 { decl := .const { name := "B" } }) (by decide)
  have two := one.edit (.push 0 { decl := .const { name := "A" } }) (by decide)
  have linked : constantRoot.Linked :=
    (two.edit (.setNode 0 { decl := .const { name := "R" } }) (by decide)).linked
  refine ⟨linked, constantRoot, rfl, fun sections => ?_⟩
  have sorted := sections.sortFrom_eq (by decide)
  have swapped : constantRoot.sortFrom [] (constantRoot.body Tree.root) = [2, 1] := by
    show constantRoot.sortSection [1, 2] = [2, 1]
    rw [Tree.sortSection_pair]
    decide
  rw [swapped] at sorted
  exact absurd sorted (by decide)

end InterfaceFile
