import InterfaceFile.Lint.Index
import InterfaceFile.Proofs.Tree.LaidTrees

/-!
# Declarations by name

The index files each declaration under every name that it declares. What an insertion does is said
once, by what is found under each name afterwards; so the groups of a run are its entries, sorted by
name and in the order of the run. Where the entries come from is said by sites, the statements under
the roots with the trees that they stand in.
-/

namespace InterfaceFile

namespace DeclIndex

variable {groups : List (String × List DeclEntry)} {e : DeclEntry}

/-! ## Groups -/

/-- What is filed under a name. -/
def filed (groups : List (String × List DeclEntry)) (name : String) : List DeclEntry :=
  get { groups } name

theorem filed_cons (name sought : String) (group : List DeclEntry) :
    filed ((name, group) :: groups) sought = if name = sought then group else filed groups sought := by
  by_cases here : name = sought <;> simp [filed, get, here]

/-- Every name has one group, the names are in order, and no group is empty. -/
structure Sorted (groups : List (String × List DeclEntry)) : Prop where
  increasing : (groups.map Prod.fst).Pairwise (· < ·)
  inhabited : ∀ pair ∈ groups, pair.2 ≠ []

namespace Sorted

theorem tail {pair : String × List DeclEntry} (h : Sorted (pair :: groups)) : Sorted groups :=
  ⟨(List.pairwise_cons.1 h.increasing).2, fun p member => h.inhabited p (List.mem_cons_of_mem _ member)⟩

theorem head_lt {name : String} {group : List DeclEntry} (h : Sorted ((name, group) :: groups)) :
    ∀ pair ∈ groups, name < pair.1 :=
  fun _ member => (List.pairwise_cons.1 h.increasing).1 _ (List.mem_map_of_mem member)

/-- Nothing is filed under a name before all others. -/
theorem filed_eq_nil {name : String} (below : ∀ pair ∈ groups, name < pair.1) :
    filed groups name = [] := by
  induction groups with
  | nil => rfl
  | cons pair groups ih =>
    obtain ⟨first, group⟩ := pair
    obtain ⟨here, later⟩ := List.forall_mem_cons.1 below
    have other : first ≠ name := fun same => String.lt_irrefl name (same ▸ here)
    rw [filed_cons, if_neg other, ih later]

/-- The groups are what is filed under some name. -/
theorem mem_iff (h : Sorted groups) {name : String} {group : List DeclEntry} :
    (name, group) ∈ groups ↔ group = filed groups name ∧ group ≠ [] := by
  induction groups with
  | nil => simp [filed, get]
  | cons pair groups ih =>
    obtain ⟨first, entries⟩ := pair
    rw [List.mem_cons, ih h.tail, filed_cons]
    by_cases here : first = name
    · subst here
      have beyond : filed groups first = [] := filed_eq_nil h.head_lt
      have nonempty : entries ≠ [] := h.inhabited (first, entries) List.mem_cons_self
      simp only [beyond, if_true, Prod.mk.injEq, true_and]
      constructor
      · rintro (rfl | ⟨rfl, none⟩)
        · exact ⟨rfl, nonempty⟩
        · exact absurd rfl none
      · exact fun found => .inl found.1
    · have other : (name, group) ≠ (first, entries) := by
        intro same
        exact here (Prod.mk.inj same).1.symm
      simp [other, here]

end Sorted

/-- An insertion adds no name but that of its entry. -/
theorem name_of_mem_insert {pair : String × List DeclEntry} (member : pair ∈ insert e groups) :
    pair.1 = e.name ∨ ∃ old ∈ groups, pair.1 = old.1 := by
  fun_induction insert e groups with
  | case1 => exact .inl (by rw [List.mem_singleton.1 member])
  | case2 name group rest before =>
    rcases List.mem_cons.1 member with rfl | old
    · exact .inl rfl
    · exact .inr ⟨pair, old, rfl⟩
  | case3 group rest before =>
    rcases List.mem_cons.1 member with rfl | old
    · exact .inl rfl
    · exact .inr ⟨pair, List.mem_cons_of_mem _ old, rfl⟩
  | case4 name group rest before other ih =>
    rcases List.mem_cons.1 member with rfl | later
    · exact .inr ⟨(name, group), List.mem_cons_self, rfl⟩
    · exact (ih later).imp_right fun ⟨old, listed, same⟩ => ⟨old, List.mem_cons_of_mem _ listed, same⟩

namespace Sorted

/-- Groups stay sorted if the first is before all others. -/
theorem cons {name : String} {group : List DeclEntry} (rest : Sorted groups) (nonempty : group ≠ [])
    (before : ∀ pair ∈ groups, name < pair.1) : Sorted ((name, group) :: groups) where
  increasing := by
    refine List.pairwise_cons.2 ⟨fun other member => ?_, rest.increasing⟩
    obtain ⟨pair, listed, rfl⟩ := List.mem_map.1 member
    exact before pair listed
  inhabited := List.forall_mem_cons.2 ⟨nonempty, rest.inhabited⟩

theorem insert (h : Sorted groups) (e : DeclEntry) : Sorted (insert e groups) := by
  fun_induction DeclIndex.insert e groups with
  | case1 => exact h.cons (by simp) (by simp)
  | case2 name group rest before =>
    refine h.cons (by simp) (List.forall_mem_cons.2 ⟨before, fun pair member => ?_⟩)
    exact String.lt_trans before (h.head_lt pair member)
  | case3 group rest before => exact h.tail.cons (by simp) h.head_lt
  | case4 name group rest before other ih =>
    have nonempty : group ≠ [] := h.inhabited (name, group) List.mem_cons_self
    refine (ih h.tail).cons nonempty fun pair member => ?_
    rcases name_of_mem_insert member with new | ⟨old, listed, same⟩
    · rw [new]
      exact Std.lt_of_le_of_ne (String.not_lt.1 before) (Ne.symm other)
    · rw [same]
      exact h.head_lt old listed

/-- An insertion shows under the name of its entry, at the end, and nowhere else. -/
theorem filed_insert (h : Sorted groups) (e : DeclEntry) (name : String) :
    filed (DeclIndex.insert e groups) name =
      filed groups name ++ if e.name = name then [e] else [] := by
  fun_induction DeclIndex.insert e groups with
  | case1 => rw [filed_cons]; rfl
  | case2 first group rest before =>
    rw [filed_cons]
    split
    · next same =>
      subst same
      rw [filed_eq_nil (List.forall_mem_cons.2 ⟨before, fun pair member =>
        String.lt_trans before (h.head_lt pair member)⟩)]
      rfl
    · simp
  | case3 group rest before =>
    rw [filed_cons, filed_cons]
    split <;> simp
  | case4 first group rest before other ih =>
    rw [filed_cons, filed_cons, ih h.tail]
    split
    · next same => simp [same ▸ other]
    · rfl

end Sorted

/-- The groups of a run are sorted, and under each name is filed, in order, what the run had of that
    name. -/
theorem foldl_insert (es : List DeclEntry) :
    Sorted (es.foldl (fun groups e => insert e groups) []) ∧ ∀ name,
      filed (es.foldl (fun groups e => insert e groups) []) name = es.filter (·.name = name) := by
  -- The run is taken apart at its end, as an entry is added at the end of its group.
  induction es using List.reverseRecOn with
  | nil => exact ⟨⟨.nil, by simp⟩, fun name => rfl⟩
  | append_singleton es e ih =>
    obtain ⟨sorted, found⟩ := ih
    rw [List.foldl_append]
    refine ⟨sorted.insert e, fun name => ?_⟩
    show filed (insert e _) name = _
    rw [sorted.filed_insert, found, List.filter_append]
    by_cases here : e.name = name <;> simp [here]

end DeclIndex

/-! ## Sites -/

/-- A statement in one of several trees. -/
structure Site where
  tree : Tree
  /-- The place of the tree among the trees. -/
  position : Nat
  id : NodeId

namespace Site

/-- The statement itself. -/
def node (s : Site) : Node :=
  s.tree.node s.id

/-- The names that the statement declares, if it declares any. -/
def names (s : Site) : List String :=
  if s.node.declaresName then s.tree.declaredNames s.id else []

/-- The statement as it is entered under a name. -/
def entry (s : Site) (name : String) : DeclEntry :=
  { tree := s.position, id := s.id, node := s.node, name }

/-- The statements under the root of one tree, each scope before its body. -/
def ofTree (t : Tree) (position : Nat) : List Site :=
  ((t.body Tree.root).flatMap t.preorder).map fun id => { tree := t, position, id }

end Site

/-- The statements under the roots, tree by tree. -/
def sites (ts : List Tree) : List Site :=
  ts.zipIdx.flatMap fun (t, position) => Site.ofTree t position

namespace Site

variable {ts : List Tree}

theorem mem_ofTree {t : Tree} (h : t.Linked) {position : Nat} {s : Site} :
    s ∈ ofTree t position ↔
      s.tree = t ∧ s.position = position ∧ s.id ≠ Tree.root ∧ Tree.root ∈ t.lineage s.id := by
  rw [ofTree, List.mem_map, ← h.descendants_eq]
  constructor
  · rintro ⟨id, inside, rfl⟩
    exact ⟨rfl, rfl, (h.mem_descendants.1 inside).symm⟩
  · rintro ⟨rfl, rfl, lower, attached⟩
    exact ⟨s.id, h.mem_descendants.2 ⟨attached, lower⟩, rfl⟩

/-- The sites are all attached statements but the roots. -/
theorem mem_sites (linked : ∀ t ∈ ts, t.Linked) {s : Site} :
    s ∈ sites ts ↔
      ts[s.position]? = some s.tree ∧ s.id ≠ Tree.root ∧ Tree.root ∈ s.tree.lineage s.id := by
  rw [sites, List.mem_flatMap]
  constructor
  · rintro ⟨⟨t, position⟩, numbered, member⟩
    have found := List.mk_mem_zipIdx_iff_getElem?.1 numbered
    obtain ⟨rfl, rfl, stands⟩ := (mem_ofTree (linked t (List.mem_of_getElem? found))).1 member
    exact ⟨found, stands⟩
  · rintro ⟨found, stands⟩
    have fine := linked s.tree (List.mem_of_getElem? found)
    exact ⟨(s.tree, s.position), List.mk_mem_zipIdx_iff_getElem?.2 found,
      (mem_ofTree fine).2 ⟨rfl, rfl, stands⟩⟩

/-- No statement is met twice. -/
theorem nodup_sites (linked : ∀ t ∈ ts, t.Linked) :
    ((sites ts).map fun s => (s.position, s.id)).Nodup := by
  rw [sites, List.map_flatMap, List.nodup_flatMap]
  constructor
  · rintro ⟨t, position⟩ numbered
    have fine := linked t (List.fst_mem_of_mem_zipIdx numbered)
    have distinct : (t.preorder Tree.root).tail.Nodup := (fine.nodup_preorder Tree.root).tail
    rw [fine.preorder_eq, List.tail_cons] at distinct
    show ((ofTree t position).map _).Nodup
    rw [ofTree, List.map_map]
    exact distinct.map fun a b same => (Prod.mk.inj same).2
  · have places : (ts.zipIdx.map Prod.snd).Pairwise (· ≠ ·) := by
      rw [List.zipIdx_map_snd]
      exact List.nodup_range'
    refine (List.pairwise_map.1 places).imp fun {a b} other x inA inB => other ?_
    obtain ⟨s, here, rfl⟩ := List.mem_map.1 inA
    obtain ⟨s', there, same⟩ := List.mem_map.1 inB
    obtain ⟨id, -, rfl⟩ := List.mem_map.1 here
    obtain ⟨id', -, rfl⟩ := List.mem_map.1 there
    exact (Prod.mk.inj same).1.symm

/-- Of the entries of a statement, those under one name. -/
theorem filter_entries (s : Site) (name : String) :
    (s.names.map s.entry).filter (·.name = name) =
      List.replicate (s.names.count name) (s.entry name) := by
  have own : (fun e : DeclEntry => decide (e.name = name)) ∘ s.entry = fun n => decide (n = name) := rfl
  rw [List.filter_map, own, List.filter_eq, List.map_replicate]

end Site

namespace DeclIndex

variable {ts : List Tree}

theorem nodes_ofTrees (linked : ∀ t ∈ ts, t.Linked) :
    (ofTrees ts).nodes = (sites ts).map fun s => s.entry (s.tree.qualifiedName s.id) := by
  rw [sites, List.map_flatMap]
  refine List.flatMap_congr fun ⟨t, position⟩ numbered => ?_
  have fine := linked t (List.fst_mem_of_mem_zipIdx numbered)
  show treeNodes position t = (Site.ofTree t position).map _
  rw [treeNodes, Site.ofTree, List.map_map, fine.descendants_eq]
  rfl

/-- The entries of one tree are those of its statements. -/
theorem treeDecls_eq_flatMap {t : Tree} (h : t.Linked) (position : Nat) :
    treeDecls position t = (Site.ofTree t position).flatMap fun s => s.names.map s.entry := by
  rw [treeDecls, Site.ofTree, List.flatMap_map, ← h.descendants_eq]
  generalize t.descendants Tree.root = ids
  induction ids with
  | nil => rfl
  | cons id ids ih =>
    rw [List.flatMap_cons, ← ih]
    cases named : (t.node id).declaresName <;> simp [Site.names, Site.node, Site.entry, named]

/-- The groups of an index are sorted, and a name leads to the statements that declare it, in order and
    as often as they do. -/
theorem groups_ofTrees (linked : ∀ t ∈ ts, t.Linked) :
    Sorted (ofTrees ts).groups ∧ ∀ name, (ofTrees ts).get name =
      (sites ts).flatMap fun s => List.replicate (s.names.count name) (s.entry name) := by
  obtain ⟨sorted, found⟩ :=
    foldl_insert (ts.zipIdx.flatMap fun (t, position) => treeDecls position t)
  refine ⟨sorted, fun name => (found name).trans ?_⟩
  rw [List.filter_flatMap, sites, List.flatMap_assoc]
  refine List.flatMap_congr fun ⟨t, position⟩ numbered => ?_
  have fine := linked t (List.fst_mem_of_mem_zipIdx numbered)
  show (treeDecls position t).filter _ = _
  rw [treeDecls_eq_flatMap fine, List.filter_flatMap]
  exact List.flatMap_congr fun s _ => s.filter_entries name

/-- Under a name stand the entries of the statements that declare it. -/
theorem mem_get (linked : ∀ t ∈ ts, t.Linked) {name : String} {e : DeclEntry} :
    e ∈ (ofTrees ts).get name ↔ ∃ s ∈ sites ts, name ∈ s.names ∧ e = s.entry name := by
  rw [(groups_ofTrees linked).2, List.mem_flatMap]
  simp only [List.mem_replicate, ne_eq, List.count_eq_zero, not_not]

end DeclIndex

/-- The index of trees whose links agree. Its nodes are all attached statements but the roots, each
    once, tree by tree and each scope before its body. The names of its groups increase strictly. Under a
    name stand the statements that declare it, in the order of the nodes, each as often as it declares
    the name, and every name that is declared has its group. -/
theorem declarations_are_grouped_by_name {ts : List Tree} (linked : ∀ t ∈ ts, t.Linked) :
    let ix := DeclIndex.ofTrees ts
    (ix.nodes = (sites ts).map fun s => s.entry (s.tree.qualifiedName s.id)) ∧
    ((sites ts).map fun s => (s.position, s.id)).Nodup ∧
    (∀ s, s ∈ sites ts ↔
      ts[s.position]? = some s.tree ∧ s.id ≠ Tree.root ∧ Tree.root ∈ s.tree.lineage s.id) ∧
    (∀ t ∈ ts, ∀ id, t.preorder id = id :: (t.body id).flatMap t.preorder) ∧
    (ix.groups.map Prod.fst).Pairwise (· < ·) ∧
    (∀ name, ix.get name =
      (sites ts).flatMap fun s => List.replicate (s.names.count name) (s.entry name)) ∧
    ∀ name group, (name, group) ∈ ix.groups ↔ group = ix.get name ∧ group ≠ [] := by
  intro ix
  obtain ⟨sorted, found⟩ := DeclIndex.groups_ofTrees linked
  exact ⟨DeclIndex.nodes_ofTrees linked, Site.nodup_sites linked, fun s => Site.mem_sites linked,
    fun t member => (linked t member).preorder_eq, sorted.increasing, found,
    fun name group => sorted.mem_iff⟩

/-- A class with an attribute that is listed twice, and a module of the same name that adds to it. -/
def sharedNames : List Tree :=
  let attr (access : Access) (names : List String) : Outline :=
    .mk { decl := .attr { access, names } } []
  [.ofOutlines none [.mk (.classDef "A" none) [attr .reader ["x", "y", "x"], .mk .blank []]],
    .ofOutlines none [.mk (.moduleDef "A")
      [attr .writer ["x"], .mk { decl := .method { name := "x", singleton := true } } []]]]

theorem linked_sharedNames : ∀ t ∈ sharedNames, t.Linked := by
  simp [sharedNames, Tree.linked_ofOutlines]

theorem declarations_are_grouped_by_name_sharedNames :
    (∀ t ∈ sharedNames, t.Linked) ∧
      (DeclIndex.ofTrees sharedNames).nodes.length = 6 ∧
      (DeclIndex.ofTrees sharedNames).groups.map Prod.fst = ["A", "A#x", "A#y", "A::x"] ∧
      ["A", "A#x", "A#y", "A::x"].Pairwise (· < ·) ∧
      ((DeclIndex.ofTrees sharedNames).get "A#x").map (fun e => (e.tree, e.id)) =
        [(0, 2), (0, 2), (1, 2)] := by
  obtain ⟨nodes, -, -, -, increasing, found, -⟩ := declarations_are_grouped_by_name linked_sharedNames
  have names : (DeclIndex.ofTrees sharedNames).groups.map Prod.fst = ["A", "A#x", "A#y", "A::x"] := by
    decide +kernel
  refine ⟨linked_sharedNames, ?_, names, names ▸ increasing, ?_⟩
  · rw [nodes]
    decide +kernel
  · rw [found]
    decide +kernel

end InterfaceFile
