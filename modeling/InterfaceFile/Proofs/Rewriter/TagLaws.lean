import InterfaceFile.Proofs.Merge.Assembly
import InterfaceFile.Proofs.Rewriter.Sorted
import InterfaceFile.Proofs.Rewriter.Spaced
import InterfaceFile.Proofs.Rewriter.Tagged
import InterfaceFile.Proofs.Tree.Relinked

/-!
# Laws of tagging

Which statements get a tag is decided by where they stand, what they declare and which comments they
have. A tag changes none of the first two, so two runs with one tag are one run, and a tree may be
sorted before or after it is tagged.
-/

namespace InterfaceFile

/-- What either of two choices asks for. -/
def TagOptions.or (o o' : TagOptions) : TagOptions :=
  { scopes := o.scopes || o'.scopes, properties := o.properties || o'.properties }

/-- Constants, methods, attributes, type members and struct fields. -/
def Declaration.IsProperty : Declaration → Prop
  | .const _ | .method _ | .attr _ => True
  | .call c => c.isProperty = true
  | .scope _ | .blank => False

namespace Node

variable {n : Node}

theorem isTagged_or (n : Node) (top : Bool) (o o' : TagOptions) :
    n.isTagged top (o.or o') = (n.isTagged top o || n.isTagged top o') := by
  unfold isTagged TagOptions.or
  cases n.decl <;> cases top <;> simp [Bool.and_or_distrib_right]

theorem isTagged_iff {top : Bool} {o : TagOptions} : n.isTagged top o = true ↔
    n.isBlank = false ∧ (top = true ∨ (o.scopes = true ∧ n.isScope = true) ∨
      (o.properties = true ∧ n.decl.IsProperty)) := by
  unfold isTagged isBlank isScope scope?
  cases n.decl <;> simp [Declaration.IsProperty]

/-- Two runs over a node are one run. -/
theorem tagged_twice (n : Node) (text : String) (p q : Bool) :
    (if q then (if p then n.addComment text else n).addComment text
      else if p then n.addComment text else n) = if p || q then n.addComment text else n := by
  cases p <;> cases q <;> simp [addComment_addComment]

end Node

namespace Tree

variable {t u : Tree} {name : String} {o o' : TagOptions} {id : NodeId}

/-! ## One run -/

/-- The statement gets the tag `name`: it stands under the root, is no empty line, has no comment with
    that text, and stands at the top of the file or is of a kind that is to be tagged. -/
def Receives (t : Tree) (name : String) (o : TagOptions) (id : NodeId) : Prop :=
  root ∈ t.lineage id ∧ id ≠ root ∧ (t.node id).isBlank = false ∧
    (∀ c ∈ (t.node id).comments, c.text ≠ "@" ++ name) ∧
    (t.parent id = some root ∨ (o.scopes = true ∧ (t.node id).isScope = true) ∨
      (o.properties = true ∧ (t.node id).decl.IsProperty))

namespace TaggedAt

theorem linked (h : t.Linked) (tagged : TaggedAt t name o u (t.descendants root)) : u.Linked :=
  h.congr tagged.size.ge tagged.parent tagged.body

theorem lineage_eq (h : t.Linked) (tagged : TaggedAt t name o u (t.descendants root)) (id : NodeId) :
    u.lineage id = t.lineage id :=
  h.lineage_congr (tagged.linked h) fun i _ => tagged.parent i

theorem decl_eq (tagged : TaggedAt t name o u (t.descendants root)) (id : NodeId) :
    (u.node id).decl = (t.node id).decl := by
  rw [tagged.node, taggedNode]
  split
  · split
    · exact Node.decl_addComment _ _
    · rfl
  · rfl

theorem mem_descendants (h : t.Linked) (tagged : TaggedAt t name o u (t.descendants root)) :
    id ∈ u.descendants root ↔ id ∈ t.descendants root := by
  rw [(tagged.linked h).mem_descendants, h.mem_descendants, tagged.lineage_eq h]

theorem isScope_eq (tagged : TaggedAt t name o u (t.descendants root)) (id : NodeId) :
    (u.node id).isScope = (t.node id).isScope := by
  rw [Node.isScope, Node.isScope, Node.scope?, Node.scope?, tagged.decl_eq]

theorem mem_scopes (h : t.Linked) (tagged : TaggedAt t name o u (t.descendants root)) :
    id ∈ u.scopes ↔ id ∈ t.scopes := by
  rw [(tagged.linked h).mem_scopes, h.mem_scopes, tagged.lineage_eq h, tagged.isScope_eq]

/-- The tag comes to the nodes that receive it, as their last comment, and to no others. -/
theorem node_eq (h : t.Linked) (tagged : TaggedAt t name o u (t.descendants root)) (id : NodeId) :
    (t.Receives name o id → u.node id =
      { t.node id with comments := (t.node id).comments ++ [{ text := "@" ++ name }] }) ∧
    (¬ t.Receives name o id → u.node id = t.node id) := by
  have selected : (t.node id).isTagged (t.parent id = some root) o = true ↔
      (t.node id).isBlank = false ∧ (t.parent id = some root ∨
        (o.scopes = true ∧ (t.node id).isScope = true) ∨
        (o.properties = true ∧ (t.node id).decl.IsProperty)) := by
    rw [Node.isTagged_iff, decide_eq_true_eq]
  have known : ((t.node id).comments.any fun c => c.text = "@" ++ name) = true ↔
      ¬ ∀ c ∈ (t.node id).comments, c.text ≠ "@" ++ name := by
    simp
  rw [tagged.node, taggedNode]
  constructor
  · rintro ⟨attached, other, proper, fresh, kind⟩
    rw [if_pos (h.mem_descendants.2 ⟨attached, other⟩), if_pos (selected.2 ⟨proper, kind⟩)]
    exact if_neg fun old => known.1 old fresh
  · intro refused
    split
    · next inside =>
      obtain ⟨attached, other⟩ := h.mem_descendants.1 inside
      split
      · next chosen =>
        obtain ⟨proper, kind⟩ := selected.1 chosen
        exact if_pos (known.2 fun fresh => refused ⟨attached, other, proper, fresh, kind⟩)
      · rfl
    · rfl

end TaggedAt

/-! ## Two runs -/

/-- Two runs with one tag are one run with the choices of both. -/
theorem Linked.tag_tag (h : t.Linked) (name : String) (o o' : TagOptions) :
    (t.tag name o).tag name o' = t.tag name (o.or o') := by
  have first := h.taggedAt name o
  have second := (first.linked h).taggedAt name o'
  have both := h.taggedAt name (o.or o')
  have node : ∀ i, ((t.tag name o).tag name o').node i = (t.tag name (o.or o')).node i := by
    intro i
    rw [second.node, both.node]
    by_cases inside : i ∈ t.descendants root
    · rw [if_pos ((first.mem_descendants h).2 inside), if_pos inside, taggedNode, first.parent,
        Node.isTagged_congr (first.decl_eq i), first.node, if_pos inside, taggedNode, taggedNode,
        Node.isTagged_or]
      exact Node.tagged_twice _ _ _ _
    · rw [if_neg fun again => inside ((first.mem_descendants h).1 again), if_neg inside, first.node,
        if_neg inside]
  refine ext_slots ?_ ?_ fun i _ => ?_
  · rw [second.strictness, first.strictness, both.strictness]
  · rw [second.size, first.size, both.size]
  · have parent : ((t.tag name o).tag name o').parent i = (t.tag name (o.or o')).parent i := by
      rw [second.parent, first.parent, both.parent]
    have body : ((t.tag name o).tag name o').body i = (t.tag name (o.or o')).body i := by
      rw [second.body, first.body, both.body]
    have fields : ∀ a b : Slot, a.node = b.node → a.parent = b.parent → a.body = b.body → a = b := by
      rintro ⟨⟩ ⟨⟩ rfl rfl rfl
      rfl
    exact fields _ _ (node i) parent body

/-! ## Tagging and sorting -/

/-- A tagged tree is sorted as the tree is. -/
theorem TaggedAt.sorted_body {s s' : Tree} (h : t.Linked)
    (tagged : TaggedAt t name o u (t.descendants root)) (sorted : SortedAt t s t.scopes)
    (sorted' : SortedAt u s' u.scopes) (scope : NodeId) : s'.body scope = s.body scope := by
  rw [sorted'.body, sorted.body, sortedBody, sortFrom_congr_decl tagged.decl_eq, tagged.body,
    ← sortedBody]
  exact if_congr (tagged.mem_scopes h) rfl rfl

/-- Sorting leaves what it keeps under the root where it was. -/
theorem SortedAt.parent_eq {s : Tree} (h : t.Linked) (sorted : SortedAt t s t.scopes)
    {scope : NodeId} (link : s.parent id = some scope) : t.parent id = some scope := by
  have listed := (sorted.linked.parent_iff id scope).1 link
  rw [sorted.body] at listed
  refine (h.parent_iff id scope).2 ?_
  split at listed
  · exact (mem_sortedBody.1 listed).1
  · exact listed

theorem SortedAt.mem_descendants {s : Tree} (h : t.Linked) (sorted : SortedAt t s t.scopes)
    (inside : id ∈ s.descendants root) : id ∈ t.descendants root := by
  obtain ⟨attached, other⟩ := sorted.linked.mem_descendants.1 inside
  refine h.mem_descendants.2 ⟨?_, other⟩
  exact h.attached_of_links sorted.linked (P := fun _ => True)
    (fun _ _ _ link => ⟨sorted.parent_eq h link, trivial⟩) trivial attached

/-- What stands under the root of a sorted tree gets its tag before or after. -/
theorem SortedAt.taggedNode_eq {s : Tree} (h : t.Linked) (sorted : SortedAt t s t.scopes)
    (inside : id ∈ s.descendants root) : s.taggedNode name o id = t.taggedNode name o id := by
  obtain ⟨attached, other⟩ := sorted.linked.mem_descendants.1 inside
  have link : s.parent id = t.parent id := by
    cases up : s.parent id with
    | some scope => exact (sorted.parent_eq h up).symm
    | none =>
      rw [sorted.linked.lineage_eq, up, List.mem_singleton] at attached
      exact absurd attached.symm other
  rw [taggedNode, taggedNode, sorted.node, link]

end Tree

/-- Where the links agree, tagging changes comments only: the nodes that receive the tag have it after
    their other comments, without a location, and no other node changes. Two runs with one tag are one
    run with the choices of both, so a second run changes nothing. A tree that is tagged and sorted has
    the same statements under the root as one that is sorted and tagged. -/
theorem tagging_is_exact_and_commutes_with_sorting {t : Tree} (h : t.Linked) (name : String)
    (o : TagOptions) :
    ((t.tag name o).size = t.size ∧ (t.tag name o).strictness = t.strictness ∧
      ∀ id, (t.tag name o).parent id = t.parent id ∧ (t.tag name o).body id = t.body id ∧
        (t.Receives name o id → (t.tag name o).node id =
          { decl := (t.node id).decl
            comments := (t.node id).comments ++ [{ text := "@" ++ name, loc := none }]
            loc := (t.node id).loc }) ∧
        (¬ t.Receives name o id → (t.tag name o).node id = t.node id)) ∧
    (∀ o', (t.tag name o).tag name o' = t.tag name (o.or o')) ∧
    (t.tag name o).tag name o = t.tag name o ∧
    ∃ s s', t.sort = .ok s ∧ (t.tag name o).sort = .ok s' ∧
      s'.outline Tree.root = (s.tag name o).outline Tree.root ∧
      ∀ id, s'.body id = (s.tag name o).body id := by
  have tagged := h.taggedAt name o
  have idempotent : (t.tag name o).tag name o = t.tag name o := by
    rw [h.tag_tag]
    simp [TagOptions.or]
  obtain ⟨s, sort, sorted⟩ := h.sort_ok
  obtain ⟨s', sort', sorted'⟩ := (tagged.linked h).sort_ok
  have after := sorted.linked.taggedAt name o
  have body : ∀ id, s'.body id = (s.tag name o).body id := by
    intro id
    rw [after.body, tagged.sorted_body h sorted sorted']
  have node : ∀ id, Tree.root ∈ (s.tag name o).lineage id →
      s'.node id = (s.tag name o).node id := by
    intro id attached
    rw [after.lineage_eq sorted.linked] at attached
    rw [sorted'.node, tagged.node, after.node]
    by_cases inside : id ∈ s.descendants Tree.root
    · rw [if_pos (sorted.mem_descendants h inside), if_pos inside, sorted.taggedNode_eq h inside]
    · -- Only the root stands under the root and not inside it.
      have top : id = Tree.root := by
        by_contra other
        exact inside (sorted.linked.mem_descendants.2 ⟨attached, other⟩)
      rw [if_neg inside, if_neg fun listed => (h.mem_descendants.1 listed).2 top, sorted.node]
  have same := ((after.linked sorted.linked).inside_congr sorted'.linked node fun i _ => body i).1
  exact ⟨⟨tagged.size, tagged.strictness, fun id => ⟨tagged.parent id, tagged.body id,
    tagged.node_eq h id⟩⟩, h.tag_tag name o, idempotent, s, s', sort, sort', same, body⟩

theorem tagging_is_exact_and_commutes_with_sorting_paddedClass :
    paddedClass.Linked ∧ paddedClass.Receives "x" { scopes := true } 2 ∧
      ¬ paddedClass.Receives "x" {} 2 ∧ ¬ paddedClass.Receives "x" { scopes := true } 3 ∧
      ((paddedClass.tag "x" { scopes := true }).node 2).comments = [{ text := "@x" }] ∧
      ((paddedClass.tag "x" { scopes := true }).node 3).comments = [] ∧
      (paddedClass.tag "x" { scopes := true }).tag "x" { properties := true } =
        paddedClass.tag "x" { scopes := true, properties := true } ∧
      ∃ s s', paddedClass.sort = .ok s ∧ (paddedClass.tag "x" { scopes := true }).sort = .ok s' ∧
        s'.body 2 = [] ∧
        s'.outline Tree.root = (s.tag "x" { scopes := true }).outline Tree.root := by
  have linked := linked_paddedClass
  obtain ⟨⟨-, -, nodes⟩, twice, -, s, s', sort, sort', same, body⟩ :=
    tagging_is_exact_and_commutes_with_sorting linked "x" { scopes := true }
  have chosen : paddedClass.Receives "x" { scopes := true } 2 :=
    ⟨by decide, by decide, by decide, by decide, .inr (.inl ⟨rfl, by decide⟩)⟩
  have deeper : ¬ paddedClass.Receives "x" {} 2 := by
    rintro ⟨-, -, -, -, top | ⟨asked, -⟩ | ⟨asked, -⟩⟩
    · exact absurd top (by decide)
    · cases asked
    · cases asked
  have empty : ¬ paddedClass.Receives "x" { scopes := true } 3 :=
    fun receives => absurd receives.2.2.1 (by decide)
  have hollow : s'.body 2 = [] := by
    obtain ⟨s₀, run, sorted⟩ := linked.sort_ok
    obtain rfl := Except.ok.inj (sort.symm.trans run)
    rw [body, (sorted.linked.taggedAt "x" { scopes := true }).body, sorted.body, if_pos (by decide)]
    exact List.mergeSort_nil
  exact ⟨linked, chosen, deeper, empty, congrArg Node.comments ((nodes 2).2.2.1 chosen),
    congrArg Node.comments ((nodes 3).2.2.2 empty), twice { properties := true }, s, s', sort, sort',
    hollow, same⟩

end InterfaceFile
