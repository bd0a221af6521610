import InterfaceFile.Tree.Link
import Mathlib.Data.Finset.Card
import Mathlib.Logic.Relation
import Mathlib.Order.WellFounded

/-!
# Links that agree

A tree stores every link twice, in the slot of the statement and in the slot of the scope around
it. `Linked` says that the two agree and that the links go up to an end from everywhere. In such a
tree the way up from a node meets no slot twice, so the number of slots bounds it and the bound of
`lineage` does not show: `lineage` and `qualifiedName` satisfy the equations of an unbounded walk.
-/

namespace InterfaceFile.Tree

/-- `scope` is the scope right around `child`. -/
def Encloses (t : Tree) (scope child : NodeId) : Prop :=
  t.parent child = some scope

/-- The two ends of every link agree, and following links upwards comes to an end. -/
structure Linked (t : Tree) : Prop where
  /-- The root exists. -/
  root_lt : root < t.size
  /-- A node names the scope around it exactly if that scope lists it. -/
  parent_iff : ∀ child scope, t.parent child = some scope ↔ child ∈ t.body scope
  /-- No body lists a node twice. -/
  nodup : ∀ scope, (t.body scope).Nodup
  /-- Bodies list nodes that exist. -/
  bounded : ∀ scope, ∀ child ∈ t.body scope, child < t.size
  root_parent : t.parent root = none
  /-- No node stands inside itself, however far up one looks. -/
  acyclic : WellFounded t.Encloses

/-- A slot that does not exist has no links. -/
theorem slot_of_size_le {t : Tree} {id : NodeId} (h : t.size ≤ id) : t.slot id = default := by
  have outside : t.slots[id]? = none := Array.getElem?_eq_none h
  simp [slot, outside]

theorem parent_of_size_le {t : Tree} {id : NodeId} (h : t.size ≤ id) : t.parent id = none := by
  rw [parent, slot_of_size_le h]
  rfl

theorem body_of_size_le {t : Tree} {id : NodeId} (h : t.size ≤ id) : t.body id = [] := by
  rw [body, slot_of_size_le h]
  rfl

namespace Linked

variable {t : Tree}

theorem child_lt (h : t.Linked) {child scope : NodeId} (link : t.parent child = some scope) :
    child < t.size :=
  h.bounded scope child ((h.parent_iff child scope).1 link)

theorem scope_lt (h : t.Linked) {child scope : NodeId} (link : t.parent child = some scope) :
    scope < t.size := by
  by_contra outside
  have listed := (h.parent_iff child scope).1 link
  rw [body_of_size_le (Nat.le_of_not_lt outside)] at listed
  simp at listed

/-- A node stands in one body only. -/
theorem scope_unique (h : t.Linked) {child scope scope' : NodeId} (one : child ∈ t.body scope)
    (two : child ∈ t.body scope') : scope = scope' := by
  have first := (h.parent_iff child scope).2 one
  have second := (h.parent_iff child scope').2 two
  rw [first] at second
  exact Option.some.inj second

/-- Nothing stands inside itself, directly or through other scopes. -/
theorem not_inside_itself (h : t.Linked) (id : NodeId) :
    ¬ Relation.TransGen t.Encloses id id :=
  fun cycle => h.acyclic.transGen.irrefl.irrefl id cycle

end Linked

/-- `path` is the way up from `id` to a node that stands nowhere. -/
inductive Climbs (t : Tree) : NodeId → List NodeId → Prop
  | top {id : NodeId} (stop : t.parent id = none) : Climbs t id [id]
  | up {id scope : NodeId} {path : List NodeId} (link : t.parent id = some scope)
      (rest : Climbs t scope path) : Climbs t id (id :: path)

namespace Climbs

variable {t : Tree} {id : NodeId} {path : List NodeId}

/-- A bounded walk that is long enough takes the whole way. -/
theorem lineageUpTo_eq (h : t.Climbs id path) :
    ∀ {n : Nat}, path.length ≤ n + 1 → t.lineageUpTo n id = path := by
  induction h with
  | top stop =>
    intro n _
    cases n with
    | zero => rfl
    | succ n => simp [lineageUpTo, stop]
  | up link rest ih =>
    intro n enough
    cases n with
    | zero =>
      cases rest with
      | top => simp at enough
      | up => simp at enough
    | succ n =>
      have shorter := ih (n := n) (by simpa using enough)
      simp [lineageUpTo, link, shorter]

/-- What the way up meets after its start stands around the start. -/
theorem mem_cases (h : t.Climbs id path) :
    ∀ x ∈ path, x = id ∨ Relation.TransGen t.Encloses x id := by
  induction h with
  | top => simp
  | up link rest ih =>
    intro x member
    rcases List.mem_cons.1 member with same | later
    · exact .inl same
    · refine .inr ?_
      rcases ih x later with same | above
      · exact same ▸ .single link
      · exact above.tail link

theorem nodup (linked : t.Linked) (h : t.Climbs id path) : path.Nodup := by
  induction h with
  | top => simp
  | @up id scope path link rest ih =>
    refine List.nodup_cons.2 ⟨fun member => ?_, ih⟩
    refine linked.not_inside_itself id ?_
    rcases rest.mem_cases id member with same | above
    · exact .single (same ▸ link)
    · exact above.tail link

theorem mem_lt (linked : t.Linked) (h : t.Climbs id path) (start : id < t.size) :
    ∀ x ∈ path, x < t.size := by
  induction h with
  | top => simpa using start
  | up link rest ih =>
    intro x member
    rcases List.mem_cons.1 member with same | later
    · exact same ▸ start
    · exact ih (linked.scope_lt link) x later

/-- The way up meets each slot at most once, so it is no longer than there are slots. -/
theorem length_le_size (linked : t.Linked) (h : t.Climbs id path) (start : id < t.size) :
    path.length ≤ t.size := by
  have sub : path.toFinset ⊆ Finset.range t.size := by
    intro x member
    exact Finset.mem_range.2 (h.mem_lt linked start x (List.mem_toFinset.1 member))
  have count := Finset.card_le_card sub
  rwa [List.toFinset_card_of_nodup (h.nodup linked), Finset.card_range] at count

theorem length_le (linked : t.Linked) (h : t.Climbs id path) : path.length ≤ t.size + 1 := by
  by_cases start : id < t.size
  · have short := h.length_le_size linked start
    omega
  · have alone := parent_of_size_le (Nat.le_of_not_lt start)
    cases h with
    | top => simp
    | up link => simp [alone] at link

end Climbs

namespace Linked

variable {t : Tree}

/-- From every node a way goes up to an end. -/
theorem exists_climbs (h : t.Linked) (id : NodeId) : ∃ path, t.Climbs id path := by
  induction id using h.acyclic.induction with
  | _ id ih =>
    cases link : t.parent id with
    | none => exact ⟨[id], .top link⟩
    | some scope =>
      obtain ⟨path, rest⟩ := ih scope link
      exact ⟨id :: path, .up link rest⟩

/-- The bounded walk takes the whole way. -/
theorem climbs_lineage (h : t.Linked) (id : NodeId) : t.Climbs id (t.lineage id) := by
  obtain ⟨path, climb⟩ := h.exists_climbs id
  have whole : t.lineage id = path := climb.lineageUpTo_eq (climb.length_le h)
  exact whole ▸ climb

/-- The scopes around a node are those around the scope right around it, and that scope. -/
theorem lineage_eq (h : t.Linked) (id : NodeId) :
    t.lineage id = id :: match t.parent id with
      | some scope => t.lineage scope
      | none => [] := by
  have climb := h.climbs_lineage id
  generalize t.lineage id = path at climb
  cases link : t.parent id with
  | none =>
    cases climb with
    | top => rfl
    | up other => simp [link] at other
  | some scope =>
    cases climb with
    | top stop => simp [link] at stop
    | @up _ scope' rest other upper =>
      obtain rfl : scope = scope' := Option.some.inj (link.symm.trans other)
      have short := upper.length_le h
      have same : t.lineage scope = rest := upper.lineageUpTo_eq short
      simp [same]

theorem mem_lineage_self (h : t.Linked) (id : NodeId) : id ∈ t.lineage id := by
  rw [h.lineage_eq]
  simp

theorem mem_lineage_of_parent (h : t.Linked) {id scope x : NodeId}
    (link : t.parent id = some scope) (member : x ∈ t.lineage scope) : x ∈ t.lineage id := by
  rw [h.lineage_eq, link]
  exact List.mem_cons_of_mem _ member

/-- A node is not among the scopes around the scope that it stands in. -/
theorem not_mem_lineage_of_parent (h : t.Linked) {id scope : NodeId}
    (link : t.parent id = some scope) : id ∉ t.lineage scope := by
  intro member
  rcases (h.climbs_lineage scope).mem_cases id member with same | above
  · exact h.not_inside_itself id (.single (same ▸ link))
  · exact h.not_inside_itself id (above.tail link)

/-- What stands around something in the lineage is in the lineage. -/
theorem parent_mem_lineage (h : t.Linked) {id x scope : NodeId} (member : x ∈ t.lineage id)
    (link : t.parent x = some scope) : scope ∈ t.lineage id := by
  induction id using h.acyclic.induction with
  | _ id ih =>
    rw [h.lineage_eq] at member
    rcases List.mem_cons.1 member with rfl | above
    · exact h.mem_lineage_of_parent link (h.mem_lineage_self scope)
    · cases upper : t.parent id with
      | none => simp [upper] at above
      | some outer =>
        rw [upper] at above
        exact h.mem_lineage_of_parent upper (ih outer upper above)

/-- The qualified name comes from the qualified name of the scope right around a node. -/
theorem qualifiedName_eq (h : t.Linked) (id : NodeId) :
    t.qualifiedName id = (t.node id).qualifiedIn (match t.parent id with
      | some scope => t.qualifiedName scope
      | none => "") := by
  have around : t.enclosingName id = match t.parent id with
      | some scope => t.qualifiedName scope
      | none => "" := by
    rw [enclosingName, h.lineage_eq]
    cases t.parent id with
    | none => rfl
    | some scope =>
      have head : t.lineage scope = scope :: (t.lineage scope).tail := by
        rw [h.lineage_eq scope]
        rfl
      show (t.lineage scope).foldr _ "" = (t.node scope).qualifiedIn (t.enclosingName scope)
      rw [head]
      rfl
  rw [qualifiedName, around]

/-- Links stay without a cycle if each node keeps the scope around it, loses it or moves into one
    scope that does not stand inside it. -/
theorem acyclic_of_relink {t' : Tree} (h : t.Linked) (scope : NodeId)
    (change : ∀ id, t'.parent id = none ∨ t'.parent id = t.parent id ∨
      (t'.parent id = some scope ∧ id ∉ t.lineage scope)) : WellFounded t'.Encloses := by
  -- Nothing in the lineage of `scope` has moved, so the way up from `scope` is a part of the old.
  have above : ∀ id, id ∈ t.lineage scope → Acc t'.Encloses id := by
    intro id
    induction id using h.acyclic.induction with
    | _ id ih =>
      intro member
      refine Acc.intro id fun outer link => ?_
      have link' : t'.parent id = some outer := link
      rcases change id with gone | kept | ⟨-, moved⟩
      · simp [gone] at link'
      · rw [kept] at link'
        exact ih outer link' (h.parent_mem_lineage member link')
      · exact absurd member moved
  refine ⟨fun id => ?_⟩
  induction id using h.acyclic.induction with
  | _ id ih =>
    refine Acc.intro id fun outer link => ?_
    have link' : t'.parent id = some outer := link
    rcases change id with gone | kept | ⟨moved, -⟩
    · simp [gone] at link'
    · rw [kept] at link'
      exact ih outer link'
    · obtain rfl : outer = scope := Option.some.inj (link'.symm.trans moved)
      exact above outer (h.mem_lineage_self outer)

end Linked

end InterfaceFile.Tree
