import InterfaceFile.Proofs.Merge.Merged

/-!
# What is merged again

As long as there is no conflict, the entries of a merge cover all that was declared. A declaration
that is covered finds its entry, agrees with it and adds nothing to it, so to merge a tree once more
changes nothing: no comment, no superclass, not even a number.
-/

namespace InterfaceFile

open Located (below declaredAt)

/-! ## Covered declarations add nothing -/

theorem uniteComments_eq_left {comments more : List Comment}
    (known : ∀ c ∈ more, ∃ d ∈ comments, d.text = c.text) :
    uniteComments comments more = comments := by
  rw [uniteComments]
  induction more with
  | nil => rfl
  | cons c rest ih =>
    obtain ⟨⟨d, inside, same⟩, later⟩ := List.forall_mem_cons.1 known
    rw [List.foldl_cons, if_pos]
    · exact ih later
    · exact List.any_eq_true.2 ⟨d, inside, by simpa using same⟩

theorem Node.unify_of_covers {keep : Keep} {old new : Node} (same : old.key? = new.key?)
    (covered : old.Covers new) :
    old.unify keep new = { node := some old, descend := new.isScope } := by
  have united : old.unite new old.decl = old := by
    rw [unite, uniteComments_eq_left covered.comments]
  have outcome := unifies_unify keep same
  generalize old.unify keep new = union at outcome
  cases outcome with
  | equal leaf => rw [united, isScope, leaf]; rfl
  | different leaf other => exact absurd (covered.leaf leaf) other
  | known ho hn => rw [united, isScope, hn]; rfl
  | @filled left right c ho hn bare given =>
    obtain ⟨s, hs, -, keeps⟩ := covered.scope right hn
    obtain rfl : left = s := Option.some.inj (ho.symm.trans hs)
    have superclass := keeps c given
    rw [bare] at superclass
    cases superclass
  | @kinds left right ho hn other =>
    obtain ⟨s, hs, flavour, -⟩ := covered.scope right hn
    obtain rfl : left = s := Option.some.inj (ho.symm.trans hs)
    rw [other] at flavour
    cases flavour
  | @superclasses left right a b ho hn ha hb other =>
    obtain ⟨s, hs, -, keeps⟩ := covered.scope right hn
    obtain rfl : left = s := Option.some.inj (ho.symm.trans hs)
    have superclass := keeps b hb
    rw [ha] at superclass
    cases superclass
    exact absurd rfl other

/-! ## Runs over what is there -/

namespace Merging

/-- A run changes nothing where all that it declares was merged without a conflict. -/
def Absorbed (run : String → Merging → Merging) (ds : List Located) : Prop :=
  ∀ name (m : Merging) all, m.Numbered → (∀ path, Gathers path all m.entries) → ds ⊆ all →
    run name m = m

theorem step_absorbed {keep : Keep} {name : String} {node : Node}
    {inside : String → Merging → Merging} {m result : Merging} {all inner : List Located}
    (numbered : m.Numbered) (gathers : ∀ path, Gathers path all m.entries)
    (absorbed : Absorbed inside inner) (known : node.declares inner ⊆ all)
    (step : Step keep name node inside m result) : result = m := by
  obtain ⟨kept, union⟩ := gathers []
  have declared : node ∈ declaredAt [] all := Located.mem_declaredAt.2 (known List.mem_cons_self)
  have covers : ∀ {before after : List Entry} {e : Entry},
      Finds m.entries node.key? before e after → e.node.Covers node := by
    intro before after e found
    have united := union.united e.node (List.mem_map_of_mem found.mem)
    apply united.covers node
    exact List.mem_filter.2 ⟨declared, by simpa using found.key.symm⟩
  cases step with
  | add fresh run =>
    have merged := union.mem_keys.2 (List.mem_map_of_mem declared)
    rw [List.map_map] at merged
    obtain ⟨e, member, same⟩ := List.mem_map.1 merged
    exact absurd same (fresh e member)
  | skip found dropped => rfl
  | drop found stays none =>
    rw [Node.unify_of_covers found.key (covers found)] at none
    cases none
  | @update before after e merged more found stays some run =>
    rw [Node.unify_of_covers found.key (covers found)] at some run
    obtain rfl : e.node = merged := Option.some.inj some
    have quiet : (m.report name e.node node { node := e.node, descend := node.isScope }).conflicts =
        m.conflicts := List.append_nil _
    have unchanged : more = { entries := e.body, next := m.next, conflicts := m.conflicts } := by
      rw [run, quiet, enter]
      split
      · next scope =>
        obtain ⟨s, key⟩ := Node.key?_of_isScope scope
        apply absorbed _ _ (below s all) (numbered.inside _ found.mem)
        · intro path
          exact (gathers (s :: path)).1 e found.mem (found.key.trans key)
        · have own : below s (node.declares inner) = inner := Located.below_declares key
          intro d inside
          rw [← own] at inside
          exact Located.mem_below.2 (known (Located.mem_below.1 inside))
      · rfl
    have whole : Entry.mk e.id e.node false e.body = e := by
      obtain ⟨id, node, dropped, body⟩ := e
      obtain rfl : dropped = false := stays
      rfl
    rw [unchanged]
    simp only [whole, ← found.split]

theorem absorbed_mergeInto (keep : Keep) (trees : List Tree) :
    Absorbed (Tree.mergeInto keep trees) (trees.flatMap Tree.declarations) := by
  apply Tree.mergeInto_induction (Q := Absorbed)
  · exact fun name m all numbered gathers known => rfl
  · intro f g ds es grows first second name m all numbered gathers known
    show g name (f name m) = m
    rw [first name m all numbered gathers fun d inside => known (List.mem_append_left _ inside)]
    exact second name m all numbered gathers fun d inside => known (List.mem_append_right _ inside)
  · intro node inside inner keyed _ _ absorbed name m all numbered gathers known
    exact step_absorbed numbered gathers absorbed known (step_meet keep name inside numbered keyed)

end Merging

namespace Tree

/-- Trees that came before give no other level. -/
theorem firstStrictness_append_of_subset {ts us : List Tree} (known : us ⊆ ts) :
    firstStrictness (ts ++ us) = firstStrictness ts := by
  rw [firstStrictness_append]
  cases first : firstStrictness ts with
  | some level => rfl
  | none =>
    apply List.find?_eq_none.2
    intro level given
    obtain ⟨t, member, stated⟩ := List.mem_filterMap.1 given
    exact List.find?_eq_none.1 first level (List.mem_filterMap.2 ⟨t, known member, stated⟩)

end Tree

/-- Trees that were merged without a conflict can be merged again, in any order and any number of
    times: there is no conflict, and the merged tree is the same in all its slots. -/
theorem merged_trees_are_absorbed (keep : Keep) (ts us : List Tree)
    (agree : (Tree.merge keep ts).2 = []) (known : us ⊆ ts) :
    (Tree.merge keep (ts ++ us)).2 = [] ∧
      (Tree.merge keep (ts ++ us)).1 = (Tree.merge keep ts).1 := by
  have gathers := (Merging.gathering_mergeInto keep ts).gathers "" {} [] Merging.numbered_empty
    Gathers.nil agree
  have declared : us.flatMap Tree.declarations ⊆ [] ++ ts.flatMap Tree.declarations := by
    intro d member
    obtain ⟨u, inside, given⟩ := List.mem_flatMap.1 member
    exact List.mem_flatMap.2 ⟨u, known inside, given⟩
  have unchanged : Tree.mergeOnto keep {} (ts ++ us) = Tree.mergeOnto keep {} ts := by
    rw [Tree.mergeOnto_append]
    exact Merging.absorbed_mergeInto keep us "" _ _ (Tree.numbered_mergeOnto keep ts) gathers
      declared
  have same : Tree.merge keep (ts ++ us) = Tree.merge keep ts := by
    rw [Tree.merge_eq, Tree.merge_eq, Tree.firstStrictness_append_of_subset known, unchanged]
  rw [same]
  exact ⟨agree, rfl⟩

theorem merged_trees_are_absorbed_reopenedClass :
    (Tree.merge .right reopenedClass).2 = [] ∧ reopenedClass.reverse ⊆ reopenedClass ∧
      (Tree.merge .right (reopenedClass ++ reopenedClass.reverse)).2 = [] ∧
      (Tree.merge .right (reopenedClass ++ reopenedClass.reverse)).1 =
        (Tree.merge .right reopenedClass).1 := by
  have agree : (Tree.merge .right reopenedClass).2 = [] := by decide
  have known : reopenedClass.reverse ⊆ reopenedClass := fun _ member => List.mem_reverse.1 member
  exact ⟨agree, known, merged_trees_are_absorbed .right reopenedClass _ agree known⟩

end InterfaceFile
