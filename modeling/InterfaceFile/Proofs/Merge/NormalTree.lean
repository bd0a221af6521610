import InterfaceFile.Proofs.Merge.Assembly
import InterfaceFile.Proofs.Merge.Renumbered

/-!
# The normal form of merged trees

The statements of a merged tree are normal, and its links agree. So every scope from the root down
has each key once and neither empty lines nor visibility markers, and to merge the tree by itself
gives the same statements back, whatever the policy.
-/

namespace InterfaceFile

namespace Tree

variable {t : Tree}

/-- In a tree of normal statements the statements of every attached node are normal. -/
theorem Linked.normal_of_attached (h : t.Linked) (normal : Outline.Normal (t.outline root).body)
    {id : NodeId} (attached : root ∈ t.lineage id) :
    Outline.Normal ((t.body id).map t.outline) := by
  have body : ∀ i, (t.outline i).body = (t.body i).map t.outline := by
    intro i
    rw [h.outline_eq]
    rfl
  induction id using h.acyclic.induction with
  | _ id ih =>
    rw [h.lineage_eq] at attached
    rcases List.mem_cons.1 attached with rfl | above
    · rwa [← body]
    · cases link : t.parent id with
      | none => simp [link] at above
      | some scope =>
        rw [link] at above
        have listed := (h.parent_iff id scope).1 link
        have inside := ((ih scope link above).of_mem (List.mem_map_of_mem listed)).2.2
        rwa [body] at inside

/-- In a tree of normal statements every scope has each key once, no empty line and no marker. -/
theorem Linked.distinct_keys (h : t.Linked) (normal : Outline.Normal (t.outline root).body)
    {scope : NodeId} (member : scope ∈ t.scopes) :
    ((t.body scope).map fun id => (t.node id).key?).Nodup ∧
      ∀ id ∈ t.body scope, (t.node id).isBlank = false ∧ (t.node id).sectionMarker? = none := by
  have inside := h.normal_of_attached normal (h.mem_scopes.1 member).1
  have node : ∀ id, (t.outline id).node = t.node id := by
    intro id
    rw [h.outline_eq]
    rfl
  constructor
  · have keys := inside.nodup_keys
    simpa only [List.map_map, Function.comp_def, node] using keys
  · intro id listed
    obtain ⟨keyed, plain, -⟩ := inside.of_mem (List.mem_map_of_mem listed)
    rw [node] at keyed plain
    exact ⟨keyed, plain⟩

/-- Normal statements are merged by themselves as they are. -/
theorem merge_of_normal (keep : Keep) (normal : Outline.Normal (t.outline root).body) :
    (merge keep [t]).2 = [] ∧
      (merge keep [t]).1.outline root = .mk .root (t.outline root).body := by
  obtain ⟨es, entries, conflicts, stated, -⟩ := mergeBody_of_normal normal keep "" {} (by simp)
  have run : mergeOnto keep {} [t] = mergeBody keep "" .pub (t.outline root).body {} := rfl
  rw [conflicts_merge, outline_merge, run, conflicts, entries, List.nil_append, stated]
  exact ⟨rfl, rfl⟩

end Tree

/-- Merging in place succeeds and gives the merged tree. Its links agree; every scope from the root
    down has each key once, no empty line and no bare marker; and merging it by itself, under any
    policy, succeeds without a conflict and gives the same statements and the same level back. -/
theorem merging_gives_normal_form (keep : Keep) (trees : List Tree) :
    let merged := (Tree.merge keep trees).1
    Tree.assemble keep trees = .ok (Tree.merge keep trees) ∧ merged.Linked ∧
      (∀ scope ∈ merged.scopes,
        ((merged.body scope).map fun id => (merged.node id).key?).Nodup ∧
          ∀ id ∈ merged.body scope,
            (merged.node id).isBlank = false ∧ (merged.node id).sectionMarker? = none) ∧
      ∀ again, ∃ result, Tree.assemble again [merged] = .ok (result, []) ∧
        result.outline Tree.root = merged.outline Tree.root ∧
        result.strictness = merged.strictness := by
  intro merged
  obtain ⟨run, linked⟩ := Tree.assemble_eq keep trees
  have normal : Outline.Normal (merged.outline Tree.root).body := Tree.normal_merge keep trees
  refine ⟨run, linked, fun scope member => linked.distinct_keys normal member, fun again => ?_⟩
  obtain ⟨quiet, same⟩ := Tree.merge_of_normal again normal
  refine ⟨(Tree.merge again [merged]).1, ?_, ?_, ?_⟩
  · rw [(Tree.assemble_eq again [merged]).1, ← quiet]
  · rw [same, Tree.outline_merge]
    rfl
  · rw [Tree.strictness_merge, Tree.strictness_merge, Tree.firstStrictness_merge, List.append_nil]

end InterfaceFile
