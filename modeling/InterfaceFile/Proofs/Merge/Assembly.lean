import InterfaceFile.Proofs.Merge.InPlace

/-!
# A merge in place holds the entries

From one declaration to the next a merge in place and a merge of entries stand at the same point:
the tree has the entries at their numbers, the index and the dropped keys are those of the entries,
and the conflicts are the same. So no change of the tree is refused, and the tree that comes out is
the tree of the entries.
-/

namespace InterfaceFile

/-- A merge in place stands, at a scope with its name, where a merge of entries stands. -/
structure Assembles (a : Assembly) (scope : NodeId) (name : String) (m : Merging) : Prop where
  linked : a.tree.Linked
  size : a.tree.size = m.next
  conflicts : a.conflicts = m.conflicts
  inside : scope < m.next
  name : a.tree.qualifiedName scope = name
  contents : a.contents scope = Entry.contents m.entries
  cells : ∀ p ∈ Entry.cellsAll scope m.entries, a.cell p.1 = p.2
  numbered : m.Numbered
  /-- No entry stands around the scope. -/
  apart : ∀ i ∈ a.tree.lineage scope, i ∉ Entry.idsAll m.entries
  /-- Nothing is known about numbers that were not given out. -/
  unused : ∀ i, m.next ≤ i → a.contents i = Entry.contents []

/-- Nothing has changed but what stands inside a scope. -/
structure Assembly.Keeps (a a' : Assembly) (scope : NodeId) (es : List Entry) : Prop where
  node : ∀ i < a.tree.size, i ∉ Entry.idsAll es → a'.tree.node i = a.tree.node i
  parent : ∀ i < a.tree.size, i ∉ Entry.idsAll es → a'.tree.parent i = a.tree.parent i
  contents : ∀ i < a.tree.size, i ∉ Entry.idsAll es → i ≠ scope → a'.contents i = a.contents i

theorem Merging.Grows.not_mem_idsAll {m m' : Merging} (grown : m.Grows m') {i : NodeId}
    (old : i < m.next) (other : i ∉ Entry.idsAll m.entries) : i ∉ Entry.idsAll m'.entries := by
  obtain ⟨n, -, ids⟩ := grown
  intro member
  rcases List.mem_append.1 (ids.mem_iff.1 member) with before | new
  · exact other before
  · exact absurd old (Nat.not_lt.2 (List.mem_range'_1.1 new).1)

theorem Merging.Grows.next_le {m m' : Merging} (grown : m.Grows m') : m.next ≤ m'.next := by
  obtain ⟨n, next, -⟩ := grown
  exact next ▸ Nat.le_add_right _ _

/-- The numbers inside an entry are numbers of the scope, and the others are not among them. -/
theorem Merging.Numbered.idsAll_cases {m : Merging}
    {before after : List Entry} {e : Entry} (numbered : m.Numbered)
    (split : m.entries = before ++ e :: after) :
    e.id ∉ Entry.idsAll e.body ∧ (∀ i, i ∉ Entry.idsAll m.entries →
        i ≠ e.id ∧ i ∉ Entry.idsAll e.body) ∧
      ∀ i ∈ Entry.idsAll before ++ Entry.idsAll after, i ≠ e.id ∧ i ∉ Entry.idsAll e.body := by
  have distinct := numbered.nodup
  rw [split, Entry.idsAll_append, Entry.idsAll, e.ids_eq, List.cons_append] at distinct ⊢
  have distinct' : (e.id :: (Entry.idsAll e.body ++
      (Entry.idsAll before ++ Entry.idsAll after))).Nodup := by
    refine (List.Perm.nodup_iff ?_).1 distinct
    refine List.perm_middle.trans (List.Perm.cons _ ?_)
    exact List.perm_append_comm_assoc _ _ _
  obtain ⟨own, rest⟩ := List.nodup_cons.1 distinct'
  refine ⟨fun again => own (List.mem_append_left _ again), fun i other => ?_, fun i member => ?_⟩
  · constructor
    · rintro rfl
      simp at other
    · intro inside
      simp [inside] at other
  · constructor
    · rintro rfl
      exact own (List.mem_append_right _ member)
    · exact fun inside => List.disjoint_of_nodup_append rest inside member

namespace Assembles

variable {a a' : Assembly} {scope : NodeId} {name : String} {m m' : Merging}
  {before after : List Entry} {d e : Entry}

theorem lineage_lt (h : Assembles a scope name m) : ∀ i ∈ a.tree.lineage scope, i < m.next := by
  intro i member
  exact h.size ▸ (h.linked.climbs_lineage scope).mem_lt h.linked (h.size.symm ▸ h.inside) i member

theorem not_mem_idsAll (h : Assembles a scope name m) : scope ∉ Entry.idsAll m.entries :=
  h.apart scope (h.linked.mem_lineage_self scope)

/-- What follows for a scope if nothing around it has changed. -/
theorem renew (h : Assembles a scope name m) (keeps : a.Keeps a' scope m.entries)
    (grown : m.Grows m') (linked : a'.tree.Linked) (size : a'.tree.size = m'.next)
    (conflicts : a'.conflicts = m'.conflicts)
    (contents : a'.contents scope = Entry.contents m'.entries)
    (cells : ∀ p ∈ Entry.cellsAll scope m'.entries, a'.cell p.1 = p.2)
    (unused : ∀ i, m'.next ≤ i → a'.contents i = Entry.contents []) :
    Assembles a' scope name m' := by
  have parent : ∀ i ∈ a.tree.lineage scope, a'.tree.parent i = a.tree.parent i :=
    fun i member => keeps.parent i (h.size ▸ h.lineage_lt i member) (h.apart i member)
  have node : ∀ i ∈ a.tree.lineage scope, a'.tree.node i = a.tree.node i :=
    fun i member => keeps.node i (h.size ▸ h.lineage_lt i member) (h.apart i member)
  refine ⟨linked, size, conflicts, Nat.lt_of_lt_of_le h.inside grown.next_le, ?_, contents, cells,
    grown.numbered h.numbered, ?_, unused⟩
  · rw [h.linked.qualifiedName_congr linked parent node, h.name]
  · rw [h.linked.lineage_congr linked parent]
    exact fun i member => grown.not_mem_idsAll (h.lineage_lt i member) (h.apart i member)

/-- An entry that stays is a statement of the scope. -/
theorem cell_eq (h : Assembles a scope name m) (split : m.entries = before ++ e :: after)
    (stays : e.dropped = false) :
    a.cell e.id = { node := e.node, parent := some scope, contents := Entry.contents e.body } := by
  obtain ⟨id, node, dropped, body⟩ := e
  obtain rfl : dropped = false := stays
  have known := h.cells (id, _) (by
    rw [split, Entry.cellsAll_append, Entry.cellsAll, Entry.cells]
    exact List.mem_append_right _ List.mem_cons_self)
  exact known

/-- The cells after a change of one entry, and of nothing beside it. -/
theorem cells_of_split (h : Assembles a scope name m)
    (split : m.entries = before ++ e :: after)
    (beside : ∀ i ∈ Entry.idsAll m.entries, i ≠ e.id → i ∉ Entry.idsAll e.body →
      a'.cell i = a.cell i)
    (here : ∀ p ∈ d.cells scope, a'.cell p.1 = p.2) :
    ∀ p ∈ Entry.cellsAll scope (before ++ d :: after), a'.cell p.1 = p.2 := by
  obtain ⟨-, -, apart⟩ := h.numbered.idsAll_cases split
  have others : ∀ p ∈ Entry.cellsAll scope before ++ Entry.cellsAll scope after,
      a'.cell p.1 = p.2 := by
    intro p known
    have listed : p ∈ Entry.cellsAll scope m.entries := by
      rw [split, Entry.cellsAll_append, Entry.cellsAll]
      simp only [List.mem_append] at known ⊢
      tauto
    have ids : p.1 ∈ Entry.idsAll before ++ Entry.idsAll after := by
      rw [← Entry.idsAll_append]
      rw [← Entry.cellsAll_append] at known
      exact Entry.mem_ids_of_mem_cellsAll known
    rw [beside p.1 (Entry.mem_ids_of_mem_cellsAll listed) (apart p.1 ids).1 (apart p.1 ids).2]
    exact h.cells p listed
  intro p known
  rw [Entry.cellsAll_append, Entry.cellsAll] at known
  rcases List.mem_append.1 known with left | known
  · exact others p (List.mem_append_left _ left)
  rcases List.mem_append.1 known with own | right
  · exact here p own
  · exact others p (List.mem_append_right _ right)

/-- Seen from an entry that stays, a merge in place stands where the merge of entries stands. -/
theorem atEntry (h : Assembles a scope name m) (split : m.entries = before ++ e :: after)
    (stays : e.dropped = false) :
    Assembles a e.id (e.node.qualifiedIn name)
      { entries := e.body, next := m.next, conflicts := m.conflicts } := by
  have cell := h.cell_eq split stays
  have member : e ∈ m.entries := by simp [split]
  have parent : a.tree.parent e.id = some scope := congrArg Cell.parent cell
  obtain ⟨own, others, -⟩ := h.numbered.idsAll_cases split
  refine ⟨h.linked, h.size, h.conflicts, ?_, ?_, congrArg Cell.contents cell, fun p inside => ?_,
    h.numbered.inside _ member, fun i around => ?_, h.unused⟩
  · exact h.numbered.lt_next _ (Entry.ids_subset_idsAll member e.id_mem_ids)
  · have node : a.tree.node e.id = e.node := congrArg Cell.node cell
    rw [h.linked.qualifiedName_eq, parent, node, ← h.name]
  · apply h.cells
    obtain ⟨id, node, dropped, body⟩ := e
    rw [split, Entry.cellsAll_append, Entry.cellsAll, Entry.cells]
    exact List.mem_append_right _ (List.mem_append_left _ (List.mem_cons_of_mem _ inside))
  · rw [h.linked.lineage_eq, parent] at around
    rcases List.mem_cons.1 around with rfl | above
    · exact own
    · exact (others i (h.apart i above)).2

end Assembles

namespace Assembly

/-- A run in place does what a run over entries does. -/
def Simulates (f : NodeId → Assembly → Except Fault Assembly) (g : String → Merging → Merging) :
    Prop :=
  ∀ scope name a m, (a.tree.node scope).isScope = true → Assembles a scope name m →
    ∃ a', f scope a = .ok a' ∧ Assembles a' scope name (g name m) ∧ a.Keeps a' scope m.entries

variable {a a' : Assembly} {scope id : NodeId} {name : String} {m : Merging} {keep : Keep}
  {node : Node} {f : NodeId → Assembly → Except Fault Assembly} {g : String → Merging → Merging}

theorem Keeps.refl (a : Assembly) (scope : NodeId) (es : List Entry) : a.Keeps a scope es :=
  ⟨fun _ _ _ => rfl, fun _ _ _ => rfl, fun _ _ _ _ => rfl⟩

theorem Keeps.cell {es : List Entry} (h : a.Keeps a' scope es) {i : NodeId}
    (inside : i < a.tree.size) (other : i ∉ Entry.idsAll es) (apart : i ≠ scope) :
    a'.cell i = a.cell i := by
  rw [Assembly.cell, h.node i inside other, h.parent i inside other,
    h.contents i inside other apart]
  rfl

theorem simulates_enter (sim : Simulates f g) {descend : Bool}
    (opens : descend = true → (a.tree.node scope).isScope = true) (h : Assembles a scope name m) :
    ∃ a', enter descend f scope a = .ok a' ∧
      Assembles a' scope name (Merging.enter descend g name m) ∧ a.Keeps a' scope m.entries := by
  cases descend with
  | true => exact sim _ _ _ _ (opens rfl) h
  | false => exact ⟨a, rfl, h, .refl a scope _⟩

theorem Keeps.trans {m' : Merging} {a'' : Assembly} (first : a.Keeps a' scope m.entries)
    (second : a'.Keeps a'' scope m'.entries) (grown : m.Grows m') (size : a.tree.size = m.next)
    (size' : a'.tree.size = m'.next) : a.Keeps a'' scope m.entries := by
  have later : ∀ i < a.tree.size, i ∉ Entry.idsAll m.entries →
      i < a'.tree.size ∧ i ∉ Entry.idsAll m'.entries := by
    intro i inside other
    rw [size] at inside
    exact ⟨size' ▸ Nat.lt_of_lt_of_le inside grown.next_le, grown.not_mem_idsAll inside other⟩
  refine ⟨fun i inside other => ?_, fun i inside other => ?_, fun i inside other apart => ?_⟩
  · obtain ⟨inside', other'⟩ := later i inside other
    exact (second.node i inside' other').trans (first.node i inside other)
  · obtain ⟨inside', other'⟩ := later i inside other
    exact (second.parent i inside' other').trans (first.parent i inside other)
  · obtain ⟨inside', other'⟩ := later i inside other
    exact (second.contents i inside' other' apart).trans (first.contents i inside other apart)

/-! ### Inside an entry -/

section Inside

variable {before after : List Entry} {e : Entry}

/-- A run inside an entry that stays. -/
theorem simulates_inside (sim : Simulates f g) (growing : Merging.Growing g)
    (h : Assembles a scope name m) (split : m.entries = before ++ e :: after)
    (stays : e.dropped = false) {descend : Bool}
    (opens : descend = true → e.node.isScope = true) :
    ∃ a', enter descend f e.id a = .ok a' ∧ a.Keeps a' scope m.entries ∧
      Assembles a' scope name
        (let inner := Merging.enter descend g (e.node.qualifiedIn name)
          { entries := e.body, next := m.next, conflicts := m.conflicts }
        { inner with entries := before ++ .mk e.id e.node false inner.entries :: after }) := by
  have cell := h.cell_eq split stays
  have node : a.tree.node e.id = e.node := congrArg Cell.node cell
  obtain ⟨own, others, -⟩ := h.numbered.idsAll_cases split
  obtain ⟨a', run, held, keeps⟩ :=
    simulates_enter sim (fun down => node ▸ opens down) (h.atEntry split stays)
  generalize inner_def : Merging.enter descend g (e.node.qualifiedIn name)
    { entries := e.body, next := m.next, conflicts := m.conflicts } = inner at held
  -- Only what stands inside the entry has changed, so around it the scope is as it was.
  have member : e ∈ m.entries := by simp [split]
  have lt_size : ∀ i ∈ Entry.idsAll m.entries, i < a.tree.size :=
    fun i known => h.size ▸ h.numbered.lt_next i known
  have outer : a.Keeps a' scope m.entries := by
    refine ⟨fun i inside other => keeps.node i inside (others i other).2,
      fun i inside other => keeps.parent i inside (others i other).2,
      fun i inside other _ => keeps.contents i inside (others i other).2 (others i other).1⟩
  have entered := growing.enter descend (e.node.qualifiedIn name)
    (h.numbered.inside m.conflicts member)
  have grown := Merging.Grows.replace e.node false split (inner_def ▸ entered)
  refine ⟨a', run, outer, ?_⟩
  refine h.renew outer grown held.linked held.size held.conflicts ?_ (fun p known => ?_) held.unused
  · obtain ⟨other, deeper⟩ := others scope h.not_mem_idsAll
    rw [keeps.contents scope (h.size.symm ▸ h.inside) deeper other, h.contents, split]
    exact Entry.contents_congr (d := e) (e := .mk e.id e.node false inner.entries) rfl rfl stays
  · refine h.cells_of_split (d := .mk e.id e.node false inner.entries) split
      (fun i known other deeper => keeps.cell (lt_size i known) deeper other) (fun p known => ?_)
      p known
    rcases List.mem_cons.1 known with rfl | deeper
    · have inside := lt_size e.id (Entry.ids_subset_idsAll member e.id_mem_ids)
      have parent : a.tree.parent e.id = some scope := congrArg Cell.parent cell
      show a'.cell e.id = _
      rw [Assembly.cell, keeps.node e.id inside own, keeps.parent e.id inside own, held.contents,
        node, parent]
      rfl
    · exact held.cells p deeper

end Inside

end Assembly

/-! ### One declaration -/

namespace Assembles

variable {a : Assembly} {scope : NodeId} {name : String} {m : Merging} {node : Node} {key : Key}
  {before after : List Entry} {e : Entry}

theorem grows_added (node : Node) : m.Grows
    { entries := m.entries ++ [.mk m.next node false []], next := m.next + 1,
      conflicts := m.conflicts } := by
  have start := Merging.Grows.refl { next := m.next + 1, conflicts := m.conflicts }
  exact start.append node

theorem grows_updated {node : Node} {dropped : Bool} (split : m.entries = before ++ e :: after) :
    m.Grows { m with entries := before ++ .mk e.id node dropped e.body :: after } := by
  have unchanged := Merging.Grows.refl { m with entries := e.body }
  exact unchanged.replace node dropped split

/-- A declaration with a new key is added. -/
theorem add (h : Assembles a scope name m) (opens : (a.tree.node scope).isScope = true)
    (named : node.key? = some key) (fresh : ∀ e ∈ m.entries, e.node.key? ≠ some key) :
    ∃ a', a.add scope key node = .ok (a', m.next) ∧ a.Keeps a' scope m.entries ∧
      Assembles a' scope name
        { entries := m.entries ++ [.mk m.next node false []], next := m.next + 1,
          conflicts := m.conflicts } := by
  obtain ⟨tree, push, linked, size, nodes, parents, bodies⟩ := h.linked.push_ok opens node
  rw [h.size] at push size nodes parents bodies
  let a' : Assembly := { a with
    tree, index := fun s k => if s = scope ∧ k = key then some m.next else a.index s k }
  have run : a.add scope key node = .ok (a', m.next) := by rw [Assembly.add, push]
  have old : ∀ i, i ≠ scope → a'.contents i = a.contents i := by
    intro i other
    simp [Assembly.contents, a', bodies, other]
  have node' : ∀ i < m.next, a'.tree.node i = a.tree.node i := by
    intro i inside
    rw [nodes, if_neg inside.ne]
  have parent : ∀ i < m.next, a'.tree.parent i = a.tree.parent i := by
    intro i inside
    rw [parents, if_neg inside.ne]
  have keeps : a.Keeps a' scope m.entries :=
    ⟨fun i inside _ => node' i (h.size ▸ inside), fun i inside _ => parent i (h.size ▸ inside),
      fun i _ _ => old i⟩
  refine ⟨a', run, keeps, h.renew keeps (grows_added node) linked size h.conflicts ?_ ?_ ?_⟩
  · rw [Entry.contents_add named fresh, ← h.contents]
    simp [Assembly.contents, a', bodies]
  · intro p known
    rw [Entry.cellsAll_append] at known
    rcases List.mem_append.1 known with before | new
    · have member := Entry.mem_ids_of_mem_cellsAll before
      have other : p.1 ≠ scope := fun same => h.not_mem_idsAll (same ▸ member)
      have inside := h.numbered.lt_next p.1 member
      rw [← h.cells p before, Assembly.cell, node' p.1 inside, parent p.1 inside, old p.1 other]
      rfl
    · obtain rfl : p = (m.next, { node, parent := some scope, contents := Entry.contents [] }) := by
        simpa [Entry.cellsAll, Entry.cells] using new
      show a'.cell m.next = _
      rw [Assembly.cell, nodes, parents, old m.next h.inside.ne', h.unused m.next (Nat.le_refl _),
        if_pos rfl, if_pos rfl]
  · intro i unused
    rw [old i (Nat.lt_of_lt_of_le h.inside (Nat.le_of_succ_le unused)).ne']
    exact h.unused i (Nat.le_of_succ_le unused)

/-- What two declarations disagree on is reported under the same name. -/
theorem report (h : Assembles a scope name m)
    (split : m.entries = before ++ e :: after) (stays : e.dropped = false) (node : Node)
    (union : Union) :
    Assembles (a.report e.id node union) scope name (m.report name e.node node union) := by
  have named := (h.atEntry split stays).name
  have old : a.tree.node e.id = e.node := congrArg Cell.node (h.cell_eq split stays)
  refine ⟨h.linked, h.size, ?_, h.inside, h.name, h.contents, h.cells,
    ⟨h.numbered.nodup, h.numbered.lt_next⟩, h.apart, h.unused⟩
  rw [Assembly.report, Merging.report, named, old, h.conflicts]

/-- A declaration takes the place of one with its key. -/
theorem setNode (h : Assembles a scope name m) (split : m.entries = before ++ e :: after)
    (stays : e.dropped = false) {merged : Node} (key : merged.key? = e.node.key?) :
    let a' := { a with tree := a.tree.setNode e.id merged }
    a.Keeps a' scope m.entries ∧ Assembles a' scope name
      { m with entries := before ++ .mk e.id merged false e.body :: after } := by
  intro a'
  obtain ⟨own, others, -⟩ := h.numbered.idsAll_cases split
  have cell := h.cell_eq split stays
  have inside := (h.atEntry split stays).inside
  have nodes : ∀ i, a'.tree.node i = if i = e.id then merged else a.tree.node i :=
    fun i => Tree.node_setNode (h.size.symm ▸ inside) merged i
  have parents : ∀ i, a'.tree.parent i = a.tree.parent i := Tree.parent_setNode e.id merged
  have contents : ∀ i, a'.contents i = a.contents i := by
    intro i
    simp [Assembly.contents, a']
  have same : ∀ i, i ≠ e.id → a'.cell i = a.cell i := by
    intro i other
    rw [Assembly.cell, nodes, parents, contents, if_neg other]
    rfl
  have keeps : a.Keeps a' scope m.entries := by
    refine ⟨fun i _ other => ?_, fun i _ _ => parents i, fun i _ _ _ => contents i⟩
    rw [nodes, if_neg (others i other).1]
  refine ⟨keeps, h.renew keeps (grows_updated split) (h.linked.setNode _ _)
    ((Tree.size_setNode _ _).trans h.size) h.conflicts ?_ ?_ fun i unused => ?_⟩
  · rw [contents, h.contents, split]
    exact Entry.contents_congr (d := e) (e := .mk e.id merged false e.body) rfl key.symm stays
  · refine h.cells_of_split split (fun i _ other _ => same i other) fun p known => ?_
    rcases List.mem_cons.1 known with rfl | deeper
    · show a'.cell e.id = _
      rw [Assembly.cell, nodes, if_pos rfl, parents, contents,
        show a.tree.parent e.id = some scope from congrArg Cell.parent cell,
        show a.contents e.id = Entry.contents e.body from congrArg Cell.contents cell]
      rfl
    · have other : p.1 ≠ e.id := fun eq => own (eq ▸ Entry.mem_ids_of_mem_cellsAll deeper)
      rw [same p.1 other]
      exact (h.atEntry split stays).cells p deeper
  · rw [contents]
    exact h.unused i unused

/-- A declaration is taken out. -/
theorem drop (h : Assembles a scope name m)
    (found : Merging.Finds m.entries (some key) before e after) (stays : e.dropped = false) :
    ∃ a', a.drop scope key e.id = .ok a' ∧ a.Keeps a' scope m.entries ∧
      Assembles a' scope name
        { m with entries := before ++ .mk e.id e.node true e.body :: after } := by
  obtain ⟨own, others, -⟩ := h.numbered.idsAll_cases found.split
  obtain ⟨notOwn, notInside⟩ := others scope h.not_mem_idsAll
  have inner := h.atEntry found.split stays
  have cell := h.cell_eq found.split stays
  have link : a.tree.parent e.id = some scope := congrArg Cell.parent cell
  obtain ⟨tree, run, size, parents, bodies, nodes⟩ := h.linked.detach e.id
  let a' : Assembly := { a with
    tree
    index := fun s k => if s = scope ∧ k = key then none else a.index s k
    dropped := fun s k => (s = scope ∧ k = key) || a.dropped s k }
  have contents : ∀ i, i ≠ scope → a'.contents i = a.contents i := by
    intro i other
    have missing : e.id ∉ a.tree.body i := fun listed =>
      other (h.linked.scope_unique listed ((h.linked.parent_iff e.id scope).1 link))
    simp [Assembly.contents, a', bodies, other, List.erase_of_not_mem missing]
  have same : ∀ i, i ≠ e.id → i ≠ scope → a'.cell i = a.cell i := by
    intro i other apart
    rw [Assembly.cell, nodes, parents, contents i apart, if_neg other]
    rfl
  have keeps : a.Keeps a' scope m.entries := by
    refine ⟨fun i _ _ => nodes i, fun i _ other => ?_, fun i _ _ => contents i⟩
    rw [parents, if_neg (others i other).1]
  refine ⟨a', by rw [Assembly.drop, run]; rfl, keeps, h.renew keeps (grows_updated found.split)
    (h.linked.linked_detach run) (size.trans h.size) h.conflicts ?_ ?_ fun i unused => ?_⟩
  · rw [Entry.contents_drop found h.numbered.nodup stays, ← h.contents]
    simp [Assembly.contents, a', bodies]
  · refine h.cells_of_split found.split (fun i known other _ => ?_) fun p known => ?_
    · exact same i other fun eq => h.not_mem_idsAll (eq ▸ known)
    · rcases List.mem_cons.1 known with rfl | deeper
      · show a'.cell e.id = _
        rw [Assembly.cell, nodes, parents, if_pos rfl, contents e.id notOwn.symm,
          show a.tree.node e.id = e.node from congrArg Cell.node cell,
          show a.contents e.id = Entry.contents e.body from congrArg Cell.contents cell]
        rfl
      · have other : p.1 ≠ e.id := fun eq => own (eq ▸ Entry.mem_ids_of_mem_cellsAll deeper)
        have apart : p.1 ≠ scope := fun eq => notInside (eq ▸ Entry.mem_ids_of_mem_cellsAll deeper)
        rw [same p.1 other apart]
        exact inner.cells p deeper
  · rw [contents i (Nat.lt_of_lt_of_le h.inside unused).ne']
    exact h.unused i unused

/-- What the index and the dropped keys say is what the first entry with a key says. -/
theorem known (h : Assembles a scope name m) (key : Key) :
    a.dropped scope key = (Entry.withKey key m.entries).any Entry.dropped ∧
      a.index scope key = (Entry.withKey key m.entries).bind fun e =>
        if e.dropped then none else some e.id :=
  ⟨congrFun (congrArg Contents.dropped h.contents) key,
    congrFun (congrArg Contents.index h.contents) key⟩

theorem index_eq (h : Assembles a scope name m)
    (found : Merging.Finds m.entries (some key) before e after) :
    a.dropped scope key = e.dropped ∧ (e.dropped = false → a.index scope key = some e.id) := by
  obtain ⟨dropped, index⟩ := h.known key
  rw [Entry.withKey_of_finds found] at dropped index
  exact ⟨dropped, fun stays => index.trans (if_neg (by simp [stays]))⟩

theorem index_of_fresh (h : Assembles a scope name m)
    (fresh : ∀ e ∈ m.entries, e.node.key? ≠ some key) :
    a.dropped scope key = false ∧ a.index scope key = none := by
  obtain ⟨dropped, index⟩ := h.known key
  rw [Entry.withKey_of_fresh fresh] at dropped index
  exact ⟨dropped, index⟩

end Assembles

namespace Assembly

variable {a : Assembly} {scope : NodeId} {name : String} {m : Merging} {node : Node}
  {f : NodeId → Assembly → Except Fault Assembly} {g : String → Merging → Merging}

/-- A declaration is merged in place as it is merged into the entries. -/
theorem simulates_meet (keep : Keep) (keyed : node.isBlank = false) (sim : Simulates f g)
    (growing : Merging.Growing g) :
    Simulates (fun scope a => a.meet keep scope node f) fun name m => m.meet keep name node g := by
  intro scope name a m opens h
  show ∃ a', a.meet keep scope node f = .ok a' ∧
    Assembles a' scope name (m.meet keep name node g) ∧ a.Keeps a' scope m.entries
  obtain ⟨key, named⟩ := Merging.exists_key keyed
  have step := Merging.step_meet keep name g h.numbered keyed
  -- The tree changes first and holds the new entry; then the statements inside it are merged.
  generalize m.meet keep name node g = result at step
  cases step with
  | @add inner fresh run =>
    rw [named] at fresh
    obtain ⟨notDropped, missing⟩ := h.index_of_fresh fresh
    obtain ⟨a₁, added, kept₁, held₁⟩ := h.add opens named fresh
    have enters : node.isScope = true → (Entry.mk m.next node false []).node.isScope = true := id
    obtain ⟨a₂, entered, kept₂, held₂⟩ := simulates_inside sim growing held₁ rfl rfl enters
    refine ⟨a₂, ?_, run ▸ held₂, kept₁.trans kept₂ (Assembles.grows_added node) h.size held₁.size⟩
    simp only [meet, named, notDropped, missing, added, Bool.false_eq_true, if_false]
    exact entered
  | skip found gone =>
    rw [named] at found
    refine ⟨a, ?_, h, .refl a scope _⟩
    simp only [meet, named, (h.index_eq found).1, gone, if_true]
  | @drop before after e found stays none =>
    rw [named] at found
    obtain ⟨notDropped, index⟩ := h.index_eq found
    have old : a.tree.node e.id = e.node := congrArg Cell.node (h.cell_eq found.split stays)
    have reported := h.report found.split stays node (e.node.unify keep node)
    obtain ⟨a', run, kept, held⟩ := reported.drop found stays
    refine ⟨a', ?_, held, kept.node, kept.parent, kept.contents⟩
    simp only [meet, named, notDropped, stays, index stays, old, none, Bool.false_eq_true, if_false]
    exact run
  | @update before after e merged inner found stays some run =>
    rw [named] at found
    obtain ⟨notDropped, index⟩ := h.index_eq found
    have old : a.tree.node e.id = e.node := congrArg Cell.node (h.cell_eq found.split stays)
    have same : e.node.key? = node.key? := found.key.trans named.symm
    have key' := Node.key?_unify same some
    have reported := h.report found.split stays node (e.node.unify keep node)
    obtain ⟨kept₁, held₁⟩ := reported.setNode found.split stays key'
    have enters : (e.node.unify keep node).descend = true →
        (Entry.mk e.id merged false e.body).node.isScope = true := by
      intro descend
      have scope := Node.isScope_of_descend same descend
      rwa [← Node.isScope_congr (key'.trans same)] at scope
    obtain ⟨a₂, entered, kept₂, held₂⟩ := simulates_inside sim growing held₁ rfl rfl enters
    have kept := kept₁.trans kept₂ (Assembles.grows_updated found.split) h.size held₁.size
    refine ⟨a₂, ?_, run ▸ held₂, kept.node, kept.parent, kept.contents⟩
    simp only [meet, named, notDropped, stays, index stays, old, some, Bool.false_eq_true, if_false]
    exact entered

/-! ### Whole runs -/

/-- One run after the other. -/
theorem Simulates.comp {f' : NodeId → Assembly → Except Fault Assembly}
    {g' : String → Merging → Merging} (first : Simulates f g) (second : Simulates f' g')
    (growing : Merging.Growing g) :
    Simulates (fun scope a => f scope a >>= f' scope) fun name m => g' name (g name m) := by
  intro scope name a m opens h
  obtain ⟨a₁, run₁, held₁, kept₁⟩ := first _ _ _ _ opens h
  have same := kept₁.node scope (h.size.symm ▸ h.inside) h.not_mem_idsAll
  obtain ⟨a₂, run₂, held₂, kept₂⟩ := second _ _ _ _ (same ▸ opens) held₁
  refine ⟨a₂, ?_, held₂, kept₁.trans kept₂ (growing name m h.numbered) h.size held₁.size⟩
  show f scope a >>= f' scope = .ok a₂
  rw [run₁]
  exact run₂

theorem Simulates.refl : Simulates (fun _ a => .ok a) fun _ m => m :=
  fun scope _ a _ _ h => ⟨a, rfl, h, .refl a scope _⟩

end Assembly

open Assembly (Simulates)

mutual

theorem simulates_assembleStatement (keep : Keep) : ∀ (o : Outline) (level : Visibility),
    Simulates (fun scope => assembleStatement keep scope level o)
      fun name => mergeStatement keep name level o
  | .mk node body, level => by
    simp only [assembleStatement, mergeStatement]
    cases blank : node.isBlank with
    | true =>
      have none : (node.inSection level).key? = none := by
        rw [Node.key?_inSection]
        exact Node.key?_eq_none.2 blank
      simp only [Assembly.meet, Merging.meet, none]
      exact .refl
    | false =>
      exact Assembly.simulates_meet keep ((node.isBlank_inSection level).trans blank)
        (simulates_assembleBody keep body .pub)
        fun name m ok => grows_mergeBody keep body name .pub m ok

/-- The statements of a body are merged in place as they are merged into the entries. -/
theorem simulates_assembleBody (keep : Keep) : ∀ (os : List Outline) (level : Visibility),
    Simulates (fun scope => assembleBody keep scope level os)
      fun name => mergeBody keep name level os
  | [], _ => by
    simp only [assembleBody, mergeBody]
    exact .refl
  | o :: rest, level => by
    cases marker : o.node.sectionMarker? with
    | some next =>
      simpa only [assembleBody, mergeBody, marker] using simulates_assembleBody keep rest next
    | none =>
      simp only [assembleBody, mergeBody, marker]
      exact (simulates_assembleStatement keep o level).comp (simulates_assembleBody keep rest level)
        fun name m ok => grows_mergeStatement keep o name level m ok

end

namespace Tree

theorem simulates_mergeInto (keep : Keep) : ∀ trees : List Tree,
    Simulates (fun scope a =>
      trees.foldlM (fun a t => assembleBody keep scope .pub (t.outline root).body a) a)
      (mergeInto keep trees)
  | [] => .refl
  | t :: rest => by
    simp only [List.foldlM_cons]
    exact (simulates_assembleBody keep (t.outline root).body .pub).comp
      (simulates_mergeInto keep rest)
      fun name m ok => grows_mergeBody keep (t.outline root).body name .pub m ok

theorem assembles_empty : Assembles {} root "" {} := by
  refine ⟨linked_empty, rfl, rfl, by decide, rfl, rfl, ?_, Merging.numbered_empty, ?_, ?_⟩
  · simp [Entry.cellsAll]
  · simp [Entry.idsAll]
  · intro i _
    rw [Assembly.contents, body_empty]
    rfl

/-- A tree that holds the entries of a finished merge is the tree of the merge. -/
theorem eq_ofEntries {a : Assembly} {m : Merging} (held : Assembles a root "" m)
    (grown : Merging.Grows {} m) (node : a.tree.node root = .root) (strictness : Option String) :
    { a.tree with strictness } = ofEntries strictness m := by
  have placed := slot_ofEntries strictness grown
  have slot : ∀ {i c}, a.cell i = c → a.tree.slot i = c.slot := by
    rintro i c rfl
    rfl
  refine ext_slots rfl (held.size.trans (size_ofEntries strictness).symm) fun i inside => ?_
  show a.tree.slot i = _
  by_cases top : i = root
  · subst top
    rw [placed _ List.mem_cons_self, slot rfl]
    simp only [Cell.slot, Assembly.cell, node, held.linked.root_parent, held.contents]
    rfl
  · obtain ⟨ids, -⟩ := ids_of_grows grown
    have bound : i < m.next := held.size ▸ inside
    have known : i ∈ Entry.idsAll m.entries := by
      have positive : 0 < i := Nat.pos_of_ne_zero top
      exact ids.mem_iff.2 (List.mem_range'_1.2 ⟨positive, by omega⟩)
    rw [← Entry.map_fst_slotsAll root, ← Entry.map_cellsAll, List.map_map] at known
    obtain ⟨p, listed, rfl⟩ := List.mem_map.1 known
    have numbered : (p.1, p.2.slot) ∈ numberedSlots m := by
      refine List.mem_cons_of_mem _ ?_
      rw [← Entry.map_cellsAll]
      exact List.mem_map.2 ⟨p, listed, rfl⟩
    exact (slot (held.cells p listed)).trans (placed _ numbered).symm

/-- Merging in place is never refused, and it gives the tree and the conflicts of the merge. -/
theorem assemble_eq (keep : Keep) (trees : List Tree) :
    assemble keep trees = .ok (merge keep trees) ∧ (merge keep trees).1.Linked := by
  obtain ⟨a, run, held, kept⟩ := simulates_mergeInto keep trees _ _ _ _ rfl assembles_empty
  have grown := grows_mergeOnto keep trees {} Merging.numbered_empty
  have node : a.tree.node root = .root := kept.node root (by decide) (by simp [Entry.idsAll])
  have tree := eq_ofEntries held grown node (firstStrictness trees)
  have merged : ({ a.tree with strictness := firstStrictness trees }, a.conflicts) =
      merge keep trees := Prod.ext tree held.conflicts
  refine ⟨?_, ?_⟩
  · rw [← merged]
    show (trees.foldlM (fun a t => assembleBody keep root .pub (t.outline root).body a) {} >>=
      fun a => pure ({ a.tree with strictness := firstStrictness trees }, a.conflicts)) = _
    rw [show trees.foldlM _ _ = _ from run]
    rfl
  · rw [← merged]
    exact held.linked.congr (Nat.le_refl _) (fun _ => rfl) fun _ => rfl

end Tree

end InterfaceFile
