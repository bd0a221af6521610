import InterfaceFile.Proofs.Merge.Merged

/-!
# When a merge has no conflict

Two declarations with one key agree if they can be made one. A merge has no conflict exactly if in
every scope all declarations with one key agree, each with each. This says nothing of the order in
which they come, and nothing of the policy.
-/

namespace InterfaceFile

open Located (below declaredAt)

/-! ## Declarations that agree -/

/-- Two declarations with one key can be made one: they say the same, or they are scopes of one kind
    that do not give two superclasses. -/
structure Node.Agrees (a b : Node) : Prop where
  leaf : a.scope? = none → a.stripped = b.stripped
  scope : ∀ s s', a.scope? = some s → b.scope? = some s' →
    s.kind.sameFlavour s'.kind = true ∧
      ∀ c c', s.kind = .classDef (some c) → s'.kind = .classDef (some c') → c = c'

/-- In every scope the declarations with one key agree. -/
def Consistent (ds : List Located) : Prop :=
  ∀ path, ∀ a ∈ declaredAt path ds, ∀ b ∈ declaredAt path ds, a.key? = b.key? → a.Agrees b

namespace Node

variable {keep : Keep} {a b old new merged : Node}

/-- Only what is declared matters. -/
theorem Agrees.congr (same : a.decl = old.decl) (h : a.Agrees b) : old.Agrees b := by
  constructor
  · intro leaf
    rw [← stripped_congr same]
    exact h.leaf ((scope?_congr same).trans leaf)
  · intro s s' hs hs'
    exact h.scope s s' ((scope?_congr same).trans hs) hs'

/-- Declarations that agree are made one without a conflict. -/
theorem conflict_of_agrees (same : old.key? = new.key?) (agrees : old.Agrees new) :
    (old.unify keep new).conflict = none := by
  have outcome := unifies_unify keep same
  generalize old.unify keep new = union at outcome
  cases outcome with
  | equal | known | filled => rfl
  | different leaf other =>
    exact absurd (agrees.leaf (scope?_eq_none_of_key same leaf)) other
  | kinds ho hn other =>
    rw [(agrees.scope _ _ ho hn).1] at other
    cases other
  | superclasses ho hn ha hb other => exact absurd ((agrees.scope _ _ ho hn).2 _ _ ha hb) other

/-- What one declaration covers agrees. -/
theorem Covers.agrees (ha : merged.Covers a) (hb : merged.Covers b) (same : a.key? = b.key?) :
    a.Agrees b := by
  constructor
  · intro leaf
    rw [← ha.leaf leaf, hb.leaf (scope?_eq_none_of_key same.symm leaf)]
  · intro s s' hs hs'
    obtain ⟨t, ht, flavour, keeps⟩ := ha.scope s hs
    obtain ⟨t', ht', flavour', keeps'⟩ := hb.scope s' hs'
    obtain rfl : t = t' := Option.some.inj (ht.symm.trans ht')
    refine ⟨sameFlavour_trans (sameFlavour_symm flavour) flavour', ?_⟩
    intro c c' hc hc'
    have both := (keeps c hc).symm.trans (keeps' c' hc')
    simpa using both

end Node

namespace Consistent

variable {ds es : List Located}

theorem mono (sub : ds ⊆ es) (h : Consistent es) : Consistent ds := by
  intro path a ha b hb
  have inside : ∀ n ∈ declaredAt path ds, n ∈ declaredAt path es := fun n member =>
    Located.mem_declaredAt.2 (sub (Located.mem_declaredAt.1 member))
  exact h path a (inside a ha) b (inside b hb)

theorem below (s : String) (h : Consistent ds) : Consistent (Located.below s ds) := by
  intro path a ha b hb
  rw [← Located.declaredAt_cons] at ha hb
  exact h (s :: path) a ha b hb

end Consistent

/-! ## Runs over declarations that agree -/

namespace Merging

/-- A run finds no conflict if what it declares agrees with what was merged before. -/
def Quiet (run : String → Merging → Merging) (ds : List Located) : Prop :=
  ∀ name (m : Merging) seen, m.Numbered → (∀ path, Gathers path seen m.entries) →
    m.conflicts = [] → Consistent (seen ++ ds) → (run name m).conflicts = []

variable {keep : Keep} {name : String} {node : Node} {inside : String → Merging → Merging}
  {m result : Merging} {seen inner : List Located}

/-- The entry with the key of a declaration is made one with it without a conflict. -/
theorem report_of_consistent {before after : List Entry} {e : Entry}
    (gathers : ∀ path, Gathers path seen m.entries) (start : m.conflicts = [])
    (consistent : Consistent (seen ++ node.declares inner))
    (found : Finds m.entries node.key? before e after) :
    (m.report name e.node node (e.node.unify keep node)).conflicts = [] := by
  have united := (gathers []).2.united e.node (List.mem_map_of_mem found.mem)
  obtain ⟨n, given, same⟩ := united.decl
  obtain ⟨declared, key⟩ := List.mem_filter.1 given
  have agrees : n.Agrees node := by
    apply consistent []
    · rw [Located.declaredAt_append]
      exact List.mem_append_left _ declared
    · simp
    · rw [found.key] at key
      simpa using key
  have agree : (e.node.unify keep node).conflict = none :=
    Node.conflict_of_agrees found.key (agrees.congr same)
  rw [report, agree, start]
  rfl

theorem quiet_step (numbered : m.Numbered) (gathers : ∀ path, Gathers path seen m.entries)
    (start : m.conflicts = []) (consistent : Consistent (seen ++ node.declares inner))
    (quiet : Quiet inside inner) (step : Step keep name node inside m result) :
    result.conflicts = [] := by
  -- Inside a scope everything agrees, too.
  have deeper : ∀ s, node.key? = some (.scope s) → Consistent (below s seen ++ inner) := by
    intro s key
    have within := consistent.below s
    rwa [Located.below_append, Located.below_declares key] at within
  cases step with
  | @add more fresh run =>
    show more.conflicts = []
    rw [run, start, enter]
    split
    · next scope =>
      obtain ⟨s, key⟩ := Node.key?_of_isScope scope
      apply quiet _ _ [] (numbered_start _ _) Gathers.nil rfl
      exact (deeper s key).mono (List.subset_append_right _ _)
    · rfl
  | skip found dropped => exact start
  | drop found stays none => exact report_of_consistent gathers start consistent found
  | @update before after e merged more found stays some run =>
    show more.conflicts = []
    rw [run, report_of_consistent gathers start consistent found, enter]
    split
    · next descend =>
      obtain ⟨s, key⟩ := Node.key?_of_isScope (Node.isScope_of_descend found.key descend)
      apply quiet _ _ (below s seen) (numbered.inside _ found.mem) _ rfl (deeper s key)
      exact fun path => (gathers (s :: path)).1 e found.mem (found.key.trans key)
    · rfl

/-- While nothing disagrees, a run gathers what it declares and finds no conflict. -/
theorem quiet_mergeInto (keep : Keep) (trees : List Tree) :
    Quiet (Tree.mergeInto keep trees) (trees.flatMap Tree.declarations) := by
  let Q (run : String → Merging → Merging) (ds : List Located) : Prop :=
    Gathering run ds ∧ Quiet run ds
  suffices all : Q (Tree.mergeInto keep trees) (trees.flatMap Tree.declarations) from all.2
  apply Tree.mergeInto_induction (Q := Q)
  · exact ⟨.nil, fun name m seen _ _ start _ => start⟩
  · rintro f g ds es grows ⟨first, quiet⟩ ⟨second, quiet'⟩
    refine ⟨.append grows first second, ?_⟩
    intro name m seen numbered before start consistent
    rw [← List.append_assoc] at consistent
    have none := quiet name m seen numbered before start
      (consistent.mono (List.subset_append_left _ _))
    exact quiet' name _ _ ((grows name m numbered).numbered numbered)
      (first.gathers name m seen numbered before none) none consistent
  · rintro node inside inner keyed - - ⟨deeper, quiet⟩
    refine ⟨.declares keyed deeper, ?_⟩
    intro name m seen numbered before start consistent
    exact quiet_step numbered before start consistent quiet
      (step_meet keep name inside numbered keyed)

end Merging

namespace Tree

/-- A merge has no conflict exactly if in every scope the declarations with one key agree. -/
theorem conflicts_merge_eq_nil_iff (keep : Keep) (trees : List Tree) :
    (merge keep trees).2 = [] ↔ Consistent (trees.flatMap declarations) := by
  constructor
  · intro agree path a ha b hb same
    have union := unions_merge agree path
    obtain ⟨n, member, key⟩ := List.mem_map.1 (union.mem_keys.2 (List.mem_map_of_mem ha))
    have united := union.united n member
    have covers : ∀ x ∈ declaredAt path (trees.flatMap declarations), x.key? = n.key? →
        n.Covers x := fun x given key => united.covers x (List.mem_filter.2 ⟨given, by simp [key]⟩)
    exact (covers a ha key.symm).agrees (covers b hb (same.symm.trans key.symm)) same
  · intro consistent
    exact Merging.quiet_mergeInto keep trees "" {} [] Merging.numbered_empty Gathers.nil rfl
      consistent

end Tree

end InterfaceFile
