import InterfaceFile.Proofs.Tree.Links
import InterfaceFile.Proofs.Tree.Walks
import InterfaceFile.Tree.Tag

/-!
# Tagged trees

Tagging changes comments and nothing else: what a node declares and where it stands say whether it
gets the tag, and neither changes on the way. So it does not matter in which order the statements
come, or how often.
-/

namespace InterfaceFile

namespace Node

@[simp]
theorem decl_addComment (n : Node) (text : String) : (n.addComment text).decl = n.decl := by
  unfold addComment
  split <;> rfl

/-- A comment is not added twice. -/
theorem addComment_addComment (n : Node) (text : String) :
    (n.addComment text).addComment text = n.addComment text := by
  by_cases known : (n.comments.any fun c => c.text = text) = true
  · have same : n.addComment text = n := if_pos known
    rw [same, same]
  · have added : n.addComment text = { n with comments := n.comments ++ [{ text := text }] } := if_neg known
    rw [added]
    exact if_pos (by simp)

/-- The comments are the old ones, and perhaps one more. -/
theorem comments_addComment (n : Node) (text : String) :
    (n.addComment text).comments = n.comments ∨
      (n.addComment text).comments = n.comments ++ [{ text := text }] := by
  unfold addComment
  split
  · exact .inl rfl
  · exact .inr rfl

theorem isTagged_congr {a b : Node} (same : a.decl = b.decl) (top : Bool) (o : TagOptions) :
    a.isTagged top o = b.isTagged top o := by
  unfold isTagged
  rw [same]

end Node

namespace Tree

variable {t u : Tree} {name : String} {o : TagOptions} {done : List NodeId}

/-- The node with a number, with the tag if it is to be tagged. -/
def taggedNode (t : Tree) (name : String) (o : TagOptions) (id : NodeId) : Node :=
  if (t.node id).isTagged (t.parent id = some root) o then (t.node id).addComment ("@" ++ name)
  else t.node id

/-- The nodes in `done` are tagged, and nothing else has changed. -/
structure TaggedAt (t : Tree) (name : String) (o : TagOptions) (u : Tree) (done : List NodeId) :
    Prop where
  size : u.size = t.size
  strictness : u.strictness = t.strictness
  parent : ∀ i, u.parent i = t.parent i
  body : ∀ i, u.body i = t.body i
  node : ∀ i, u.node i = if i ∈ done then t.taggedNode name o i else t.node i

/-- Whether a node is tagged already or not, tagging gives the same. -/
theorem TaggedAt.taggedNode_eq (h : TaggedAt t name o u done) (id : NodeId) :
    u.taggedNode name o id = t.taggedNode name o id := by
  unfold taggedNode
  rw [h.parent, h.node]
  by_cases before : id ∈ done
  · rw [if_pos before]
    unfold taggedNode
    by_cases marked : (t.node id).isTagged (t.parent id = some root) o = true
    · rw [if_pos marked, Node.isTagged_congr (Node.decl_addComment _ _), if_pos marked,
        Node.addComment_addComment]
    · rw [if_neg marked, if_neg marked]
  · rw [if_neg before]

theorem TaggedAt.step (h : TaggedAt t name o u done) {id : NodeId} (inside : id < t.size) :
    TaggedAt t name o (tagNode name o u id) (done ++ [id]) := by
  have settled : ∀ {n : NodeId → Node}, (∀ i, n i = if i = id then u.taggedNode name o id
      else u.node i) → ∀ i, n i = if i ∈ done ++ [id] then t.taggedNode name o i else t.node i := by
    intro n eq i
    rw [eq, h.taggedNode_eq, h.node]
    by_cases same : i = id
    · simp [same]
    · by_cases before : i ∈ done <;> simp [same, before]
  by_cases marked : (u.node id).isTagged (u.parent id = some root) o = true
  · have run : tagNode name o u id = u.setNode id (u.taggedNode name o id) := by
      unfold tagNode taggedNode
      rw [if_pos marked, if_pos marked]
    rw [run]
    exact ⟨(size_setNode _ _).trans h.size, h.strictness,
      fun i => (parent_setNode id _ i).trans (h.parent i),
      fun i => (body_setNode id _ i).trans (h.body i),
      settled fun i => node_setNode (h.size.symm ▸ inside) _ i⟩
  · have run : tagNode name o u id = u := if_neg marked
    have same : u.taggedNode name o id = u.node id := if_neg marked
    rw [run]
    refine ⟨h.size, h.strictness, h.parent, h.body, settled fun i => ?_⟩
    split
    · next eq => rw [same, eq]
    · rfl

/-- Tagging marks what stands under the root and leaves everything else as it is. -/
theorem Linked.taggedAt (h : t.Linked) (name : String) (o : TagOptions) :
    TaggedAt t name o (t.tag name o) (t.descendants root) := by
  have bound : ∀ id ∈ t.descendants root, id < t.size := by
    intro id member
    rw [h.descendants_eq] at member
    obtain ⟨child, listed, inside⟩ := List.mem_flatMap.1 member
    exact h.lt_of_mem_preorder (h.bounded _ _ listed) inside
  suffices run : ∀ rest done u, (∀ id ∈ rest, id < t.size) → TaggedAt t name o u done →
      TaggedAt t name o (rest.foldl (tagNode name o) u) (done ++ rest) by
    have start : TaggedAt t name o t [] := ⟨rfl, rfl, fun _ => rfl, fun _ => rfl, fun _ => by simp⟩
    exact run (t.descendants root) [] t bound start
  intro rest
  induction rest with
  | nil =>
    intro done u _ tagged
    rwa [List.append_nil]
  | cons id rest ih =>
    intro done u inside tagged
    obtain ⟨here, later⟩ := List.forall_mem_cons.1 inside
    have next := ih (done ++ [id]) _ later (tagged.step here)
    rwa [List.append_assoc] at next

end Tree

end InterfaceFile
