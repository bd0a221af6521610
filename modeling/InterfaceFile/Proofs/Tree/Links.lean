import InterfaceFile.Proofs.Tree.Lineage

/-!
# Links after a change

What each operation does to the links, said once for each: the scope around every node, the body of
every scope and the number of slots afterwards. That the links still agree follows from these
equations.
-/

namespace InterfaceFile.Tree

variable {t : Tree}

/-- A tree is known by its slots. -/
theorem ext_slots {t t' : Tree} (strictness : t.strictness = t'.strictness)
    (size : t.size = t'.size) (slots : ∀ i < t.size, t.slot i = t'.slot i) : t = t' := by
  have same : t.slots = t'.slots := by
    refine Array.ext size fun i inside inside' => ?_
    have read := slots i inside
    rwa [slot, slot, Array.getElem?_eq_getElem inside, Array.getElem?_eq_getElem inside'] at read
  cases t
  cases t'
  rw [Tree.mk.injEq]
  exact ⟨same, strictness⟩

theorem slot_modifySlot_of_size_le {id : NodeId} (h : t.size ≤ id) (f : Slot → Slot) (i : NodeId) :
    (t.modifySlot id f).slot i = t.slot i := by
  have outside : ¬ id < t.slots.size := Nat.not_lt.2 h
  by_cases hi : id = i
  · subst hi
    simp [slot, modifySlot, Array.getElem?_modify, Array.getElem?_eq_none (Nat.not_lt.1 outside)]
  · simp [slot, modifySlot, Array.getElem?_modify, hi]

/-- A part of the slots that `f` leaves alone stays as it is, whether the changed slot exists or
    not. -/
theorem slot_modifySlot_field {α : Type} (field : Slot → α) (id : NodeId) (f : Slot → Slot)
    (same : ∀ s, field (f s) = field s) (i : NodeId) :
    field ((t.modifySlot id f).slot i) = field (t.slot i) := by
  by_cases h : id < t.size
  · rw [slot_modifySlot h]
    split
    · next eq => rw [same, eq]
    · rfl
  · rw [slot_modifySlot_of_size_le (Nat.le_of_not_lt h)]

/-! ## Single slots -/

@[simp]
theorem size_setBody (id : NodeId) (body : List NodeId) : (t.setBody id body).size = t.size :=
  size_modifySlot _ _ _

@[simp]
theorem parent_setBody (id : NodeId) (body : List NodeId) (i : NodeId) :
    (t.setBody id body).parent i = t.parent i :=
  slot_modifySlot_field Slot.parent id (fun s => { s with body }) (fun _ => rfl) i

@[simp]
theorem node_setBody (id : NodeId) (body : List NodeId) (i : NodeId) :
    (t.setBody id body).node i = t.node i :=
  slot_modifySlot_field Slot.node id (fun s => { s with body }) (fun _ => rfl) i

theorem body_setBody {id : NodeId} (h : id < t.size) (body : List NodeId) (i : NodeId) :
    (t.setBody id body).body i = if i = id then body else t.body i := by
  rw [Tree.body, setBody, slot_modifySlot h]
  split <;> rfl

@[simp]
theorem size_setParent (id : NodeId) (p : Option NodeId) : (t.setParent id p).size = t.size :=
  size_modifySlot _ _ _

@[simp]
theorem body_setParent (id : NodeId) (p : Option NodeId) (i : NodeId) :
    (t.setParent id p).body i = t.body i :=
  slot_modifySlot_field Slot.body id (fun s => { s with parent := p }) (fun _ => rfl) i

@[simp]
theorem node_setParent (id : NodeId) (p : Option NodeId) (i : NodeId) :
    (t.setParent id p).node i = t.node i :=
  slot_modifySlot_field Slot.node id (fun s => { s with parent := p }) (fun _ => rfl) i

theorem parent_setParent {id : NodeId} (h : id < t.size) (p : Option NodeId) (i : NodeId) :
    (t.setParent id p).parent i = if i = id then p else t.parent i := by
  rw [Tree.parent, setParent, slot_modifySlot h]
  split <;> rfl

@[simp]
theorem size_setNode (id : NodeId) (node : Node) : (t.setNode id node).size = t.size :=
  size_modifySlot _ _ _

@[simp]
theorem parent_setNode (id : NodeId) (node : Node) (i : NodeId) :
    (t.setNode id node).parent i = t.parent i :=
  slot_modifySlot_field Slot.parent id (fun s => { s with node }) (fun _ => rfl) i

@[simp]
theorem body_setNode (id : NodeId) (node : Node) (i : NodeId) :
    (t.setNode id node).body i = t.body i :=
  slot_modifySlot_field Slot.body id (fun s => { s with node }) (fun _ => rfl) i

theorem node_setNode {id : NodeId} (inside : id < t.size) (node : Node) (i : NodeId) :
    (t.setNode id node).node i = if i = id then node else t.node i := by
  rw [Tree.node, setNode, slot_modifySlot inside]
  split <;> rfl

@[simp]
theorem size_setParents (ids : List NodeId) (p : Option NodeId) :
    (t.setParents ids p).size = t.size := by
  induction ids generalizing t with
  | nil => rfl
  | cons id ids ih => exact ih.trans (size_setParent id p)

@[simp]
theorem body_setParents (ids : List NodeId) (p : Option NodeId) (i : NodeId) :
    (t.setParents ids p).body i = t.body i := by
  induction ids generalizing t with
  | nil => rfl
  | cons id ids ih => exact ih.trans (body_setParent id p i)

theorem parent_setParents {ids : List NodeId} (h : ∀ id ∈ ids, id < t.size) (p : Option NodeId)
    (i : NodeId) : (t.setParents ids p).parent i = if i ∈ ids then p else t.parent i := by
  induction ids generalizing t with
  | nil => simp [setParents]
  | cons id ids ih =>
    have inside : ∀ x ∈ ids, x < (t.setParent id p).size := by
      intro x member
      rw [size_setParent]
      exact h x (List.mem_cons_of_mem _ member)
    have rest := ih inside
    have unfolded : t.setParents (id :: ids) p = (t.setParent id p).setParents ids p := rfl
    rw [unfolded, rest, parent_setParent (h id List.mem_cons_self)]
    by_cases later : i ∈ ids
    · simp [later]
    · by_cases eq : i = id <;> simp [later, eq]

/-! ## New nodes and new payloads -/

theorem parent_alloc (node : Node) (i : NodeId) : (t.alloc node).1.parent i = t.parent i := by
  rw [parent, slot_alloc]
  split
  · next eq => rw [eq, parent_of_size_le (Nat.le_refl _)]
  · rfl

theorem body_alloc (node : Node) (i : NodeId) : (t.alloc node).1.body i = t.body i := by
  rw [body, slot_alloc]
  split
  · next eq => rw [eq, body_of_size_le (Nat.le_refl _)]
  · rfl

/-- Links agree in any tree that has the links of one in which they do. -/
theorem Linked.congr {t' : Tree} (h : t.Linked) (size : t.size ≤ t'.size)
    (parent : ∀ i, t'.parent i = t.parent i) (body : ∀ i, t'.body i = t.body i) : t'.Linked where
  root_lt := Nat.lt_of_lt_of_le h.root_lt size
  parent_iff child scope := by
    rw [parent, body]
    exact h.parent_iff child scope
  nodup scope := by
    rw [body]
    exact h.nodup scope
  bounded scope child member := by
    rw [body] at member
    exact Nat.lt_of_lt_of_le (h.bounded scope child member) size
  root_parent := (parent root).trans h.root_parent
  acyclic := by
    have same : t'.Encloses = t.Encloses := by
      funext scope child
      simp only [Encloses, parent]
    rw [same]
    exact h.acyclic

theorem Linked.alloc (h : t.Linked) (node : Node) : (t.alloc node).1.Linked :=
  h.congr (by simp) (parent_alloc node) (body_alloc node)

theorem Linked.setNode (h : t.Linked) (id : NodeId) (node : Node) : (t.setNode id node).Linked :=
  h.congr (by simp) (by simp) (by simp)

theorem parent_empty (i : NodeId) : empty.parent i = none := by
  cases i with
  | zero => rfl
  | succ i => exact parent_of_size_le (by simp [empty, size])

theorem body_empty (i : NodeId) : empty.body i = [] := by
  cases i with
  | zero => rfl
  | succ i => exact body_of_size_le (by simp [empty, size])

theorem linked_empty : empty.Linked where
  root_lt := by decide
  parent_iff child scope := by simp [parent_empty, body_empty]
  nodup scope := by simp [body_empty]
  bounded scope child member := by simp [body_empty] at member
  root_parent := rfl
  acyclic := by
    refine ⟨fun id => Acc.intro id fun scope link => ?_⟩
    have link' : empty.parent id = some scope := link
    simp [parent_empty] at link'

/-! ## Moves -/

theorem checkAttachable_eq_ok {child scope : NodeId} :
    t.checkAttachable child scope = .ok () ↔
      child ≠ root ∧ (t.node scope).isScope = true ∧ child ∉ t.lineage scope := by
  unfold checkAttachable
  split
  · next isRoot => simp [isRoot]
  · next notRoot =>
    split
    · next leaf => simp_all
    · next opens =>
      split
      · next inside => simp [inside]
      · next outside => simp_all

/-- Where the links agree every node can be detached, and only its own link goes. -/
theorem Linked.detach (h : t.Linked) (child : NodeId) :
    ∃ t', t.detach child = .ok t' ∧ t'.size = t.size ∧
      (∀ i, t'.parent i = if i = child then none else t.parent i) ∧
      (∀ s, t'.body s = (t.body s).erase child) ∧ ∀ i, t'.node i = t.node i := by
  unfold Tree.detach
  cases link : t.parent child with
  | none =>
    refine ⟨t, rfl, rfl, fun i => ?_, fun s => ?_, fun i => rfl⟩
    · split
      · next eq => rw [eq, link]
      · rfl
    · refine (List.erase_of_not_mem fun listed => ?_).symm
      have around := (h.parent_iff child s).2 listed
      simp [link] at around
  | some p =>
    have listed := (h.parent_iff child p).1 link
    refine ⟨_, if_pos listed, by simp, fun i => ?_, fun s => ?_, fun i => by simp⟩
    · rw [parent_setParent (by simpa using h.child_lt link), parent_setBody]
    · rw [body_setParent, body_setBody (h.scope_lt link)]
      split
      · next eq => rw [eq]
      · next other =>
        refine (List.erase_of_not_mem fun elsewhere => other ?_).symm
        exact h.scope_unique elsewhere listed

theorem Linked.linked_detach {t' : Tree} (h : t.Linked) {child : NodeId}
    (run : t.detach child = .ok t') : t'.Linked := by
  obtain ⟨d, run', size, parent, body, -⟩ := h.detach child
  obtain rfl : d = t' := Except.ok.inj (run'.symm.trans run)
  refine ⟨size ▸ h.root_lt, fun x s => ?_, fun s => ?_, fun s x member => ?_, ?_, ?_⟩
  · rw [parent, body]
    by_cases eq : x = child
    · subst eq
      simp [(h.nodup s).not_mem_erase]
    · simp [eq, List.mem_erase_of_ne eq, h.parent_iff]
  · rw [body]
    exact (h.nodup s).erase child
  · rw [body] at member
    rw [size]
    exact h.bounded s x (List.mem_of_mem_erase member)
  · rw [parent, h.root_parent, ite_self]
  · refine h.acyclic_of_relink root fun id => ?_
    rw [parent]
    by_cases eq : id = child
    · exact .inl (if_pos eq)
    · exact .inr (.inl (if_neg eq))

/-- What a move changes: the link of the node that moves, and the two bodies. -/
structure Moved (t t' : Tree) (child scope : NodeId) (index : Nat) : Prop where
  size : t'.size = t.size
  parent : ∀ i, t'.parent i = if i = child then some scope else t.parent i
  body : ∀ s, t'.body s =
    if s = scope then
      ((t.body s).erase child).insertIdx (min index ((t.body s).erase child).length) child
    else (t.body s).erase child
  node : ∀ i, t'.node i = t.node i

theorem Linked.insert_eq (h : t.Linked) {child scope : NodeId} (hc : child < t.size)
    (hs : scope < t.size) (index : Nat) :
    (∃ fault, t.checkAttachable child scope = .error fault ∧
      t.insert child scope index = .error fault) ∨
    (t.checkAttachable child scope = .ok () ∧
      ∃ t', t.insert child scope index = .ok t' ∧ Moved t t' child scope index) := by
  unfold Tree.insert
  cases check : t.checkAttachable child scope with
  | error fault => exact .inl ⟨fault, rfl, rfl⟩
  | ok _ =>
    obtain ⟨d, run, size, parent, body, node⟩ := h.detach child
    refine .inr ⟨rfl, _, by simp only [run]; rfl, ?_, fun i => ?_, fun s => ?_, fun i => ?_⟩
    · simp [size]
    · rw [parent_setParent (by simpa [size] using hc), parent_setBody, parent]
      split <;> rfl
    · rw [body_setParent, body_setBody (size ▸ hs), body, body]
      split
      · next eq => rw [eq]
      · rfl
    · simp [node]

theorem Moved.linked {t' : Tree} {child scope : NodeId} {index : Nat} (h : t.Linked)
    (moved : Moved t t' child scope index) (hc : child < t.size) (notRoot : child ≠ root)
    (outside : child ∉ t.lineage scope) : t'.Linked := by
  have gone : ∀ s, child ∉ (t.body s).erase child := fun s => (h.nodup s).not_mem_erase
  have mem : ∀ s x, x ∈ t'.body s ↔ (x = child ∧ s = scope) ∨ (x ≠ child ∧ x ∈ t.body s) := by
    intro s x
    rw [moved.body]
    by_cases eq : x = child
    · subst eq
      split
      · next same => simp [List.mem_insertIdx (Nat.min_le_right _ _), same]
      · next other => simp [gone s, other]
    · split
      · rw [List.mem_insertIdx (Nat.min_le_right _ _)]
        simp [eq, List.mem_erase_of_ne eq]
      · simp [eq, List.mem_erase_of_ne eq]
  refine ⟨moved.size ▸ h.root_lt, fun x s => ?_, fun s => ?_, fun s x member => ?_, ?_, ?_⟩
  · rw [moved.parent, mem]
    by_cases eq : x = child
    · simp [eq, eq_comm]
    · simp [eq, h.parent_iff]
  · rw [moved.body]
    have distinct := (h.nodup s).erase child
    split
    · have order := List.perm_insertIdx child ((t.body s).erase child) (Nat.min_le_right index _)
      exact order.nodup_iff.2 (List.nodup_cons.2 ⟨gone s, distinct⟩)
    · exact distinct
  · rw [moved.size]
    rcases (mem s x).1 member with ⟨rfl, -⟩ | ⟨-, listed⟩
    · exact hc
    · exact h.bounded s x listed
  · rw [moved.parent, if_neg notRoot.symm]
    exact h.root_parent
  · refine h.acyclic_of_relink scope fun id => ?_
    rw [moved.parent]
    by_cases eq : id = child
    · subst eq
      exact .inr (.inr ⟨if_pos rfl, outside⟩)
    · exact .inr (.inl (if_neg eq))

/-! ## New bodies -/

theorem checkMembers_eq_ok {scope : NodeId} {seen ids : List NodeId} :
    t.checkMembers scope seen ids = .ok () ↔
      ids.Nodup ∧ ∀ id ∈ ids, id ∉ seen ∧ t.checkMember scope id = .ok () := by
  induction ids generalizing seen with
  | nil => simp [checkMembers]
  | cons id ids ih =>
    unfold checkMembers
    by_cases old : id ∈ seen
    · simp [old]
    · rw [if_neg old]
      cases check : t.checkMember scope id with
      | error fault =>
        have failed : (do Except.error fault; t.checkMembers scope (id :: seen) ids :
            Except Fault Unit) = .error fault := rfl
        simp [failed, check]
      | ok _ =>
        have passed : (do Except.ok (); t.checkMembers scope (id :: seen) ids :
            Except Fault Unit) = t.checkMembers scope (id :: seen) ids := rfl
        rw [passed, ih, List.nodup_cons]
        constructor
        · rintro ⟨distinct, rest⟩
          refine ⟨⟨fun again => (rest id again).1 List.mem_cons_self, distinct⟩, ?_⟩
          intro x member
          rcases List.mem_cons.1 member with rfl | later
          · exact ⟨old, check⟩
          · exact ⟨fun seenBefore => (rest x later).1 (List.mem_cons_of_mem _ seenBefore),
              (rest x later).2⟩
        · rintro ⟨⟨fresh, distinct⟩, all⟩
          refine ⟨distinct, fun x later => ⟨fun seenBefore => ?_, ?_⟩⟩
          · rcases List.mem_cons.1 seenBefore with rfl | before
            · exact fresh later
            · exact (all x (List.mem_cons_of_mem _ later)).1 before
          · exact (all x (List.mem_cons_of_mem _ later)).2

/-- Where the links agree, a body takes the statements that it has and those that stand nowhere
    and can be attached. -/
theorem Linked.checkMember_eq_ok (h : t.Linked) {scope child : NodeId} :
    t.checkMember scope child = .ok () ↔
      t.parent child = some scope ∨
        (t.parent child = none ∧ t.checkAttachable child scope = .ok ()) := by
  unfold checkMember
  cases link : t.parent child with
  | none => simp
  | some p =>
    by_cases same : p = scope
    · subst same
      simp [(h.parent_iff child p).1 link]
    · simp [same]

/-- What a new body changes: the links of the statements that come or go. -/
structure Rebodied (t t' : Tree) (scope : NodeId) (ids : List NodeId) : Prop where
  size : t'.size = t.size
  parent : ∀ i, t'.parent i =
    if i ∈ ids then some scope else if i ∈ t.body scope then none else t.parent i
  body : ∀ s, t'.body s = if s = scope then ids else t.body s

theorem Linked.replaceBody_eq (h : t.Linked) {scope : NodeId} {ids : List NodeId}
    (hs : scope < t.size) (hi : ∀ id ∈ ids, id < t.size) :
    (∃ fault, t.replaceBody scope ids = .error fault) ∨
    (t.checkMembers scope [] ids = .ok () ∧
      ∃ t', t.replaceBody scope ids = .ok t' ∧ Rebodied t t' scope ids) := by
  unfold Tree.replaceBody
  by_cases opens : (t.node scope).isScope = true
  · rw [if_neg (by simp [opens])]
    cases check : t.checkMembers scope [] ids with
    | error fault => exact .inl ⟨fault, rfl⟩
    | ok _ =>
      refine .inr ⟨rfl, _, rfl, by simp, fun i => ?_, fun s => ?_⟩
      · rw [parent_setBody, parent_setParents (by simpa using hi),
          parent_setParents (h.bounded scope)]
      · rw [body_setBody (by simpa using hs)]
        simp
  · exact .inl ⟨_, if_pos (by simp [opens])⟩

/-- If the new statements stood in the scope or nowhere, then the links agree again. -/
theorem Rebodied.parent_iff {t' : Tree} {scope : NodeId} {ids : List NodeId} (h : t.Linked)
    (changed : Rebodied t t' scope ids)
    (member : ∀ id ∈ ids, t.parent id = some scope ∨ t.parent id = none) (x s : NodeId) :
    t'.parent x = some s ↔ x ∈ t'.body s := by
  rw [changed.parent, changed.body]
  by_cases new : x ∈ ids
  · rw [if_pos new]
    by_cases same : s = scope
    · simp [same, new]
    · have elsewhere : x ∉ t.body s := by
        intro old
        have around := (h.parent_iff x s).2 old
        rcases member x new with inside | nowhere
        · exact same (Option.some.inj (around.symm.trans inside))
        · simp [nowhere] at around
      have other : scope ≠ s := fun eq => same eq.symm
      simp [same, elsewhere, other]
  · rw [if_neg new]
    by_cases old : x ∈ t.body scope
    · by_cases same : s = scope
      · simp [same, new, old]
      · have elsewhere : x ∉ t.body s := fun listed => same (h.scope_unique listed old)
        simp [old, same, elsewhere]
    · by_cases same : s = scope
      · subst same
        simp [new, old, h.parent_iff]
      · simp [old, same, h.parent_iff]

theorem Rebodied.linked {t' : Tree} {scope : NodeId} {ids : List NodeId} (h : t.Linked)
    (changed : Rebodied t t' scope ids) (hi : ∀ id ∈ ids, id < t.size)
    (check : t.checkMembers scope [] ids = .ok ()) : t'.Linked := by
  obtain ⟨distinct, all⟩ := checkMembers_eq_ok.1 check
  have member : ∀ id ∈ ids, t.parent id = some scope ∨
      (t.parent id = none ∧ t.checkAttachable id scope = .ok ()) :=
    fun id listed => h.checkMember_eq_ok.1 (all id listed).2
  have agree := changed.parent_iff h fun id listed => (member id listed).imp_right And.left
  refine ⟨changed.size ▸ h.root_lt, agree, fun s => ?_, fun s x listed => ?_, ?_, ?_⟩
  · rw [changed.body]
    split
    · exact distinct
    · exact h.nodup s
  · rw [changed.body] at listed
    rw [changed.size]
    split at listed
    · exact hi x listed
    · exact h.bounded s x listed
  · have notListed : root ∉ ids := by
      intro listed
      rcases member root listed with inside | ⟨-, attachable⟩
      · simp [h.root_parent] at inside
      · exact (checkAttachable_eq_ok.1 attachable).1 rfl
    rw [changed.parent, if_neg notListed, h.root_parent, ite_self]
  · refine h.acyclic_of_relink scope fun id => ?_
    rw [changed.parent]
    by_cases new : id ∈ ids
    · refine .inr (.inr ⟨if_pos new, ?_⟩)
      rcases member id new with inside | ⟨-, attachable⟩
      · exact h.not_mem_lineage_of_parent inside
      · exact (checkAttachable_eq_ok.1 attachable).2.2
    · rw [if_neg new]
      by_cases old : id ∈ t.body scope
      · exact .inl (if_pos old)
      · exact .inr (.inl (if_neg old))

end InterfaceFile.Tree
