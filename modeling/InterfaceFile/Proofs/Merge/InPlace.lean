import InterfaceFile.Proofs.Merge.NormalForm
import InterfaceFile.Proofs.Tree.Bodies

/-!
# A merge in place

A merge can work on the merged tree itself: new declarations are pushed, changed ones overwritten
and dropped ones detached, while an index says which node has a key in a scope. Every change of the
tree may be refused. `Contents` and `Cell` say what such a merge knows about a node, and what it
should know if the tree is to hold the entries of a merge.
-/

namespace InterfaceFile

/-- A merge in progress, with the tree that it works on. -/
structure Assembly where
  tree : Tree := .empty
  /-- The node that has a key in a scope. -/
  index : NodeId → Key → Option NodeId := fun _ _ => none
  /-- Has a key of a scope been dropped? -/
  dropped : NodeId → Key → Bool := fun _ _ => false
  conflicts : List Conflict := []

namespace Assembly

/-- Adds a declaration with a new key. -/
def add (a : Assembly) (scope : NodeId) (key : Key) (node : Node) :
    Except Fault (Assembly × NodeId) :=
  match a.tree.push scope node with
  | (tree, .ok id) =>
    .ok ({ a with
      tree, index := fun s k => if s = scope ∧ k = key then some id else a.index s k }, id)
  | (_, .error fault) => .error fault

/-- Takes a declaration out. Nothing with its key will stay. -/
def drop (a : Assembly) (scope : NodeId) (key : Key) (id : NodeId) : Except Fault Assembly := do
  let tree ← a.tree.detach id
  return { a with
    tree
    index := fun s k => if s = scope ∧ k = key then none else a.index s k
    dropped := fun s k => (s = scope ∧ k = key) || a.dropped s k }

/-- Records what a union disagrees on, if anything. -/
def report (a : Assembly) (id : NodeId) (new : Node) (union : Union) : Assembly :=
  let conflict := union.conflict.map fun kind =>
    { kind, name := a.tree.qualifiedName id, left := (a.tree.node id).loc, right := new.loc }
  { a with conflicts := a.conflicts ++ conflict.toList }

/-- Merges the statements inside a declaration, unless they are left out. -/
def enter (descend : Bool) (inside : NodeId → Assembly → Except Fault Assembly) (id : NodeId)
    (a : Assembly) : Except Fault Assembly :=
  if descend then inside id a else .ok a

/-- Merges a declaration into a scope. `inside` merges the statements inside it. -/
def meet (a : Assembly) (keep : Keep) (scope : NodeId) (node : Node)
    (inside : NodeId → Assembly → Except Fault Assembly) : Except Fault Assembly :=
  match node.key? with
  | none => .ok a
  | some key =>
    if a.dropped scope key then .ok a
    else match a.index scope key with
      | none => do
        let (a, id) ← a.add scope key node
        enter node.isScope inside id a
      | some id =>
        let union := (a.tree.node id).unify keep node
        let a := a.report id node union
        match union.node with
        | none => a.drop scope key id
        | some merged =>
          enter union.descend inside id { a with tree := a.tree.setNode id merged }

end Assembly

mutual

/-- Merges one statement into a scope; `level` is the visibility of its section. -/
def assembleStatement (keep : Keep) (scope : NodeId) (level : Visibility) :
    Outline → Assembly → Except Fault Assembly
  | .mk node body, a =>
    a.meet keep scope (node.inSection level) fun id => assembleBody keep id .pub body

/-- Merges the statements of a body into a scope. -/
def assembleBody (keep : Keep) (scope : NodeId) (level : Visibility) :
    List Outline → Assembly → Except Fault Assembly
  | [], a => .ok a
  | statement :: rest, a => match statement.node.sectionMarker? with
    | some level => assembleBody keep scope level rest a
    | none => do
      assembleBody keep scope level rest (← assembleStatement keep scope level statement a)

end

/-- Merges trees in order, in place. -/
def Tree.assemble (keep : Keep) (trees : List Tree) : Except Fault (Tree × List Conflict) := do
  let a ← trees.foldlM (fun a t => assembleBody keep root .pub (t.outline root).body a) {}
  return ({ a.tree with strictness := firstStrictness trees }, a.conflicts)

/-! ## Changes of the tree -/

namespace Tree

variable {t t' : Tree}

/-- One node was added at the end of a body. -/
structure Pushed (t t' : Tree) (scope : NodeId) (node : Node) : Prop where
  linked : t'.Linked
  size : t'.size = t.size + 1
  node : ∀ i, t'.node i = if i = t.size then node else t.node i
  parent : ∀ i, t'.parent i = if i = t.size then some scope else t.parent i
  body : ∀ s, t'.body s = if s = scope then t.body s ++ [t.size] else t.body s

theorem node_alloc (node : Node) (i : NodeId) :
    (t.alloc node).1.node i = if i = t.size then node else t.node i := by
  rw [Tree.node, slot_alloc]
  split <;> rfl

/-- Where the links agree a scope takes every new node. -/
theorem Linked.push_ok (h : t.Linked) {scope : NodeId} (opens : (t.node scope).isScope = true)
    (node : Node) : ∃ t', t.push scope node = (t', .ok t.size) ∧ Pushed t t' scope node := by
  have added := h.alloc node
  have size := size_alloc t node
  have inside := lt_size_of_isScope opens
  have leaf : (t.alloc node).1.body t.size = [] :=
    (body_alloc node t.size).trans (body_of_size_le (Nat.le_refl _))
  have outside : t.size ∉ (t.alloc node).1.lineage scope :=
    added.not_mem_lineage_of_body leaf inside.ne
  have fits : t.size < (t.alloc node).1.size := size ▸ Nat.lt_succ_self _
  have check : (t.alloc node).1.checkAttachable t.size scope = .ok () := by
    refine checkAttachable_eq_ok.2 ⟨(Nat.ne_of_lt h.root_lt).symm, ?_, outside⟩
    rw [node_alloc, if_neg inside.ne, opens]
  rcases added.insert_eq fits (Nat.lt_trans inside fits) ((t.alloc node).1.body scope).length with
    ⟨fault, refused, -⟩ | ⟨-, t', run, moved⟩
  · rw [check] at refused
    cases refused
  · have pushed : t.push scope node = (t', .ok t.size) := by
      have attached : (t.alloc node).1.attach (t.alloc node).2 scope = .ok t' := run
      simp only [push, attached]
      rfl
    refine ⟨t', pushed, moved.linked added fits (Nat.ne_of_lt h.root_lt).symm outside,
      moved.size.trans size, fun i => (moved.node i).trans (node_alloc node i), fun i => ?_,
      fun s => ?_⟩
    · rw [moved.parent, parent_alloc]
    · have missing : t.size ∉ t.body s := fun listed => (h.bounded s _ listed).ne rfl
      rw [moved.body, body_alloc, body_alloc, List.erase_of_not_mem missing]
      split
      · next same => rw [same, Nat.min_self, List.insertIdx_length_self]
      · rfl

/-- The way up is the same where the links on it are the same. -/
theorem Linked.lineage_congr (h : t.Linked) (h' : t'.Linked) {id : NodeId}
    (parent : ∀ i ∈ t.lineage id, t'.parent i = t.parent i) :
    t'.lineage id = t.lineage id := by
  induction id using h.acyclic.induction with
  | _ id ih =>
    have own := parent id (h.mem_lineage_self id)
    rw [h'.lineage_eq, h.lineage_eq, own]
    cases link : t.parent id with
    | none => rfl
    | some scope =>
      have above := ih scope link fun i member => parent i (h.mem_lineage_of_parent link member)
      simp only [above]

theorem Linked.qualifiedName_congr (h : t.Linked) (h' : t'.Linked) {id : NodeId}
    (parent : ∀ i ∈ t.lineage id, t'.parent i = t.parent i)
    (node : ∀ i ∈ t.lineage id, t'.node i = t.node i) :
    t'.qualifiedName id = t.qualifiedName id := by
  induction id using h.acyclic.induction with
  | _ id ih =>
    have self := h.mem_lineage_self id
    rw [h'.qualifiedName_eq, h.qualifiedName_eq, parent id self, node id self]
    cases link : t.parent id with
    | none => rfl
    | some scope =>
      have above := ih scope link
        (fun i member => parent i (h.mem_lineage_of_parent link member))
        fun i member => node i (h.mem_lineage_of_parent link member)
      simp only [above]

end Tree

/-! ## What a scope holds -/

/-- What a merge in place knows about the inside of a scope. -/
structure Contents where
  body : List NodeId
  index : Key → Option NodeId
  dropped : Key → Bool

/-- All that a merge in place knows about a node. -/
structure Cell where
  node : Node
  parent : Option NodeId
  contents : Contents

namespace Assembly

def contents (a : Assembly) (id : NodeId) : Contents :=
  { body := a.tree.body id, index := a.index id, dropped := a.dropped id }

def cell (a : Assembly) (id : NodeId) : Cell :=
  { node := a.tree.node id, parent := a.tree.parent id, contents := a.contents id }

end Assembly

/-- The slot of a node. -/
def Cell.slot (c : Cell) : Slot :=
  { node := c.node, parent := c.parent, body := c.contents.body }

namespace Entry

/-- What is known about a scope with the given entries. -/
def contents (es : List Entry) : Contents :=
  { body := kept es
    index := fun key => (withKey key es).bind fun e => if e.dropped then none else some e.id
    dropped := fun key => (withKey key es).any Entry.dropped }

mutual

/-- What is known about an entry and all entries inside it. -/
def cells (parent : NodeId) : Entry → List (NodeId × Cell)
  | mk id node dropped body =>
    (id, { node, parent := if dropped then none else some parent, contents := contents body }) ::
      cellsAll id body

/-- What is known about entries and all entries inside them. -/
def cellsAll (parent : NodeId) : List Entry → List (NodeId × Cell)
  | [] => []
  | e :: rest => e.cells parent ++ cellsAll parent rest

end

mutual

theorem map_cells (parent : NodeId) :
    ∀ e : Entry, (e.cells parent).map (fun p => (p.1, p.2.slot)) = e.slots parent
  | mk id node dropped body => by
    rw [cells, slots, List.map_cons, map_cellsAll]
    rfl

theorem map_cellsAll (parent : NodeId) :
    ∀ es : List Entry, (cellsAll parent es).map (fun p => (p.1, p.2.slot)) = slotsAll parent es
  | [] => rfl
  | e :: rest => by
    rw [cellsAll, slotsAll, List.map_append, map_cells, map_cellsAll]

end

theorem cellsAll_append (parent : NodeId) (es fs : List Entry) :
    cellsAll parent (es ++ fs) = cellsAll parent es ++ cellsAll parent fs := by
  induction es with
  | nil => rfl
  | cons e rest ih => rw [List.cons_append, cellsAll, cellsAll, ih, List.append_assoc]

theorem mem_ids_of_mem_cellsAll {parent : NodeId} {es : List Entry} {p : NodeId × Cell}
    (member : p ∈ cellsAll parent es) : p.1 ∈ idsAll es := by
  rw [← map_fst_slotsAll parent, ← map_cellsAll, List.map_map]
  exact List.mem_map.2 ⟨p, member, rfl⟩

section Contents

variable {es before after body : List Entry} {e : Entry} {key : Key} {node : Node} {id : NodeId}

theorem kept_split (stays : e.dropped = false) :
    kept (before ++ e :: after) = kept before ++ e.id :: kept after := by
  simp [kept, stays]

theorem kept_split_dropped (dropped : e.dropped = true) :
    kept (before ++ e :: after) = kept before ++ kept after := by
  simp [kept, dropped]

theorem mem_idsAll_of_mem_kept (member : id ∈ kept es) : id ∈ idsAll es := by
  obtain ⟨e, inside, rfl⟩ := List.mem_map.1 member
  exact ids_subset_idsAll (List.mem_of_mem_filter inside) (id_mem_ids e)

/-- A new entry is known by its key. -/
theorem contents_add (named : node.key? = some key)
    (fresh : ∀ e ∈ es, e.node.key? ≠ some key) :
    contents (es ++ [.mk id node false body]) =
      { contents es with
        body := (contents es).body ++ [id]
        index := fun k => if k = key then some id else (contents es).index k } := by
  simp only [contents, Contents.mk.injEq]
  refine ⟨kept_split rfl, funext fun k => ?_, funext fun k => ?_⟩
  · rw [withKey_append (d := .mk id node false body) fresh named]
    split <;> rfl
  · rw [withKey_append (d := .mk id node false body) fresh named]
    split
    · next eq => rw [eq, withKey_of_fresh fresh]; rfl
    · rfl

/-- An entry that is dropped leaves its key behind. -/
theorem contents_drop (found : Merging.Finds es (some key) before e after)
    (distinct : (idsAll es).Nodup) (stays : e.dropped = false) :
    contents (before ++ .mk e.id e.node true e.body :: after) =
      { body := (contents es).body.erase e.id
        index := fun k => if k = key then none else (contents es).index k
        dropped := fun k => k = key || (contents es).dropped k } := by
  simp only [contents, Contents.mk.injEq]
  refine ⟨?_, funext fun k => ?_, funext fun k => ?_⟩
  · rw [found.split] at distinct ⊢
    rw [idsAll_append, idsAll, e.ids_eq] at distinct
    have other : e.id ∉ kept before := fun again =>
      List.disjoint_of_nodup_append distinct (mem_idsAll_of_mem_kept again) (by simp)
    rw [kept_split_dropped rfl, kept_split stays, List.erase_append_right _ other,
      List.erase_cons_head]
  · rw [withKey_replace (d := .mk e.id e.node true e.body) found found.key]
    split <;> rfl
  · rw [withKey_replace (d := .mk e.id e.node true e.body) found found.key]
    split
    · next eq => simp [eq, Entry.dropped]
    · next other => simp [other]

/-- What an entry holds, and what it says but for its key, is not known from outside. -/
theorem contents_congr {d : Entry} (id : d.id = e.id) (key : d.node.key? = e.node.key?)
    (dropped : d.dropped = e.dropped) :
    contents (before ++ d :: after) = contents (before ++ e :: after) := by
  have either : ∀ k x, withKey k (before ++ x :: after) = (withKey k before).or
      (if x.node.key? = some k then some x else withKey k after) := by
    intro k x
    rw [withKey, List.find?_append, List.find?_cons]
    by_cases named : x.node.key? = some k <;> simp [named, withKey]
  simp only [contents, Contents.mk.injEq]
  refine ⟨?_, funext fun k => ?_, funext fun k => ?_⟩
  · cases gone : e.dropped with
    | true => rw [kept_split_dropped (dropped.trans gone), kept_split_dropped gone]
    | false => rw [kept_split (dropped.trans gone), kept_split gone, id]
  · rw [either, either, key]
    cases withKey k before with
    | some x => rfl
    | none => by_cases named : e.node.key? = some k <;> simp [named, id, dropped]
  · rw [either, either, key]
    cases withKey k before with
    | some x => rfl
    | none => by_cases named : e.node.key? = some k <;> simp [named, dropped]

end Contents

end Entry

end InterfaceFile
