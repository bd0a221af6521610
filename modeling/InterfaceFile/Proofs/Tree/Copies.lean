import InterfaceFile.Printer.File
import InterfaceFile.Proofs.Tree.Bodies
import InterfaceFile.Proofs.Tree.LaidTrees

/-!
# Copied statements

A copy of a node with all that stands inside it is a block of new slots, in the order in which the walk
down meets the nodes that are copied. So a node is known in the copy by its place in that walk, and each
new slot holds the same node with its links renumbered.
-/

namespace InterfaceFile

/-! ## Renumbered slots -/

namespace Tree

variable {source : Tree} {get : NodeId → Slot} {number : NodeId → NodeId}

/-- A slot with its links renumbered, whose node stands in the given scope. -/
def renumbered (source : Tree) (number : NodeId → NodeId) (scope : Option NodeId) (id : NodeId) : Slot :=
  { node := source.node id, parent := scope, body := (source.body id).map number }

/-- What stands inside a node is found in renumbered slots. -/
def RenumberedInside (source : Tree) (get : NodeId → Slot) (number : NodeId → NodeId)
    (scope : Option NodeId) (id : NodeId) : Prop :=
  get (number id) = source.renumbered number scope id ∧
    ∀ x ∈ source.descendants id,
      get (number x) = source.renumbered number ((source.parent x).map number) x

namespace Linked

theorem size_outline (h : source.Linked) (id : NodeId) :
    (source.outline id).size = (source.preorder id).length := by
  induction id using h.descent.induction with
  | _ id ih =>
    have bodies : ∀ ids : List NodeId, (∀ c ∈ ids, c ∈ source.body id) →
        Outline.sizeAll (ids.map source.outline) = (ids.flatMap source.preorder).length := by
      intro ids listed
      induction ids with
      | nil => rfl
      | cons c ids rest =>
        obtain ⟨here, later⟩ := List.forall_mem_cons.1 listed
        rw [List.map_cons, Outline.sizeAll, ih c here, rest later, List.flatMap_cons, List.length_append]
    rw [h.outline_eq, Outline.size, bodies _ fun _ listed => listed, h.preorder_eq, List.length_cons]

/-- Statements that are laid out one after the other, with the numbers that the walk over them gives, are
    renumbered if each of them is. -/
theorem renumberedInside_of_mem (h : source.Linked) {next : Nat} {scope : Option NodeId}
    {ids : List NodeId}
    (each : ∀ c ∈ ids, ∀ p, (source.outline c).LaidOut get (number c) p →
      (source.preorder c).map number = List.range' (number c) (source.preorder c).length →
        source.RenumberedInside get number p c)
    (laid : Outline.LaidOutAll get next scope (ids.map source.outline))
    (row : (ids.flatMap source.preorder).map number =
      List.range' next (ids.flatMap source.preorder).length) :
    Outline.numbers next (ids.map source.outline) = ids.map number ∧
      ∀ c ∈ ids, source.RenumberedInside get number scope c := by
  induction ids generalizing next with
  | nil => exact ⟨rfl, by simp⟩
  | cons c ids ih =>
    obtain ⟨here, later⟩ := List.forall_mem_cons.1 each
    obtain ⟨laidC, laidRest⟩ := laid
    rw [List.flatMap_cons, List.map_append, List.length_append, ← List.range'_append_1] at row
    obtain ⟨rowC, rowRest⟩ := List.append_inj row (by simp)
    have first : number c = next := by
      rw [h.preorder_eq, List.map_cons, List.length_cons, List.range'_succ] at rowC
      exact (List.cons.inj rowC).1
    subst first
    rw [h.size_outline] at laidRest
    obtain ⟨numbers, inside⟩ := ih later laidRest rowRest
    refine ⟨?_, List.forall_mem_cons.2 ⟨here scope laidC rowC, inside⟩⟩
    rw [List.map_cons, Outline.numbers, h.size_outline, numbers, List.map_cons]

/-- Where a nested statement is laid out, every node inside it is found under its number, if the numbers
    follow the walk. -/
theorem renumberedInside_of_laidOut (h : source.Linked) {id : NodeId} {scope : Option NodeId}
    (laid : (source.outline id).LaidOut get (number id) scope)
    (row : (source.preorder id).map number =
      List.range' (number id) (source.preorder id).length) :
    source.RenumberedInside get number scope id := by
  induction id using h.descent.induction generalizing scope with
  | _ id ih =>
    rw [h.outline_eq] at laid
    rw [h.preorder_eq, List.map_cons, List.length_cons, List.range'_succ] at row
    obtain ⟨own, inside⟩ := laid
    obtain ⟨numbers, each⟩ := h.renumberedInside_of_mem (fun c listed p => ih c listed)
      inside (List.cons.inj row).2
    refine ⟨?_, fun x below => ?_⟩
    · rw [own, numbers, renumbered]
    · rw [h.descendants_eq, List.mem_flatMap] at below
      obtain ⟨c, listed, member⟩ := below
      rw [h.preorder_eq_descendants] at member
      rcases List.mem_cons.1 member with rfl | deeper
      · rw [(each x listed).1, (h.parent_iff x id).2 listed]
        rfl
      · exact (each c listed).2 x deeper

end Linked

/-! ## Copies made one after the other -/

variable {t : Tree}

/-- Copies nodes one after the other, each with all that stands inside it. -/
def copyAll (t source : Tree) : List NodeId → Tree × List NodeId
  | [] => (t, [])
  | id :: rest =>
    let (t, copy) := t.copySubtree source id
    let (t, copies) := t.copyAll source rest
    (t, copy :: copies)

end Tree

/-- Statements that are laid out get no number before the first. -/
theorem Outline.not_mem_numbers_of_lt {i next : Nat} (before : i < next) (os : List Outline) :
    i ∉ numbers next os :=
  fun member => Nat.not_le_of_lt before ((numbers_spec next os).2 i member).1

/-- In a row of statements the scope around them shows in the slots of the statements themselves and
    nowhere else. -/
theorem Outline.getElem?_slotsAll (next : Nat) (scope : Option NodeId) (os : List Outline) (i : Nat) :
    (slotsAll next scope os)[i]? = ((slotsAll next none os)[i]?).map fun s =>
      if next + i ∈ numbers next os then { s with parent := scope } else s := by
  induction os generalizing next i with
  | nil => rfl
  | cons o rest ih =>
    obtain ⟨node, body⟩ := o
    rw [slotsAll, slotsAll, numbers]
    by_cases here : i < (mk node body).size
    · rw [List.getElem?_append_left (by simpa using here),
        List.getElem?_append_left (by simpa using here)]
      cases i with
      | zero => simp [slots]
      | succ i =>
        have inner : next + (i + 1) ∉ next :: numbers (next + (mk node body).size) rest := by
          intro member
          rcases List.mem_cons.1 member with same | later
          · omega
          · exact not_mem_numbers_of_lt (by omega) rest later
        simp only [slots, List.getElem?_cons_succ, if_neg inner, Option.map_id']
    · obtain ⟨k, rfl⟩ := Nat.exists_eq_add_of_le (Nat.le_of_not_lt here)
      rw [List.getElem?_append_right (by simp), List.getElem?_append_right (by simp)]
      simp only [length_slots, Nat.add_sub_cancel_left]
      rw [ih, ← Nat.add_assoc]
      have beyond : next + (mk node body).size + k ≠ next := by
        have := (mk node body).size_pos
        omega
      simp [beyond]

namespace Tree

/-- Copies made one after the other are a row of statements that stand nowhere. -/
theorem copyAll_eq (t source : Tree) (ids : List NodeId) :
    (t.copyAll source ids).1.strictness = t.strictness ∧
      (t.copyAll source ids).1.slots =
        t.slots ++ (Outline.slotsAll t.size none (ids.map source.outline)).toArray ∧
      (t.copyAll source ids).2 = Outline.numbers t.size (ids.map source.outline) := by
  induction ids generalizing t with
  | nil => exact ⟨rfl, by simp [copyAll, Outline.slotsAll], rfl⟩
  | cons id ids ih =>
    obtain ⟨strictness, slots, numbers⟩ := ih (t.copySubtree source id).1
    have size : (t.copySubtree source id).1.size = t.size + (source.outline id).size := size_graft _
    rw [size] at slots numbers
    refine ⟨strictness, ?_, congrArg (t.size :: ·) numbers⟩
    show ((t.copySubtree source id).1.copyAll source ids).1.slots = _
    rw [slots, copySubtree, slots_graft]
    simp [Outline.slotsAll]

/-- What stands behind the slots of a tree is found in the slots that are added. -/
theorem slot_add {t v : Tree} {added : List Slot} (slots : v.slots = t.slots ++ added.toArray) (k : Nat) :
    v.slot (t.size + k) = added[k]?.getD default := by
  have beyond : t.slots.size ≤ t.size + k := Nat.le_add_right _ _
  have place : t.size + k - t.slots.size = k := Nat.add_sub_cancel_left _ _
  rw [slot, slots, Array.getElem?_append_right beyond, place, List.getElem?_toArray]

/-- What it does to a slot to link a row of statements to their scope. -/
theorem slot_setBody_setParents {v : Tree} {scope : NodeId} {ids : List NodeId}
    (row : ∀ c ∈ ids, c < v.size) (top : scope < v.size) (i : NodeId) :
    ((v.setParents ids (some scope)).setBody scope ids).slot i =
      { node := v.node i
        parent := if i ∈ ids then some scope else v.parent i
        body := if i = scope then ids else v.body i } := by
  rw [← parent_setParents row, ← node_setParents ids (some scope), ← body_setParents ids (some scope),
    ← body_setBody (by rwa [size_setParents]), ← node_setBody, ← parent_setBody]
  rfl

/-- A new node with a row of statements behind it is a grafted statement when they are linked. -/
theorem setBody_setParents_eq_graft {t v : Tree} {node : Node} {os : List Outline}
    (strictness : v.strictness = t.strictness)
    (slots : v.slots = t.slots ++ ({ node } :: Outline.slotsAll (t.size + 1) none os).toArray) :
    (v.setParents (Outline.numbers (t.size + 1) os) (some t.size)).setBody t.size
      (Outline.numbers (t.size + 1) os) = (t.graft (.mk node os)).1 := by
  have size : v.size = t.size + (Outline.sizeAll os + 1) := by
    simp [Tree.size, slots]
  obtain ⟨-, bounds⟩ := Outline.numbers_spec (t.size + 1) os
  have row : ∀ c : Nat, c ∈ Outline.numbers (t.size + 1) os → c < v.size := by
    intro c member
    have := bounds c member
    omega
  have top : t.size < v.size := by omega
  refine ext_slots ((strictness_setParents _ _).trans strictness) (by simp [size, Outline.size])
    fun (i : Nat) inside => ?_
  rw [size_setBody, size_setParents, size] at inside
  rw [slot_setBody_setParents row top]
  -- The slot is an old one, that of the new node, or one of the row.
  by_cases old : i < t.size
  · have kept : v.slot i = t.slot i := by
      rw [slot, slots, Array.getElem?_append_left old, slot]
    have before : i ∉ Outline.numbers (t.size + 1) os :=
      Outline.not_mem_numbers_of_lt (Nat.lt_succ_of_lt old) os
    rw [slot_graft_of_lt _ old, if_neg before, if_neg (Nat.ne_of_lt old), Tree.node, Tree.parent,
      Tree.body, kept]
  · obtain ⟨k, rfl⟩ := Nat.exists_eq_add_of_le (Nat.le_of_not_lt old)
    rw [slot_add (slots_graft _), Tree.node, Tree.parent, Tree.body, slot_add slots, Outline.slots]
    cases k with
    | zero =>
      have first : t.size ∉ Outline.numbers (t.size + 1) os :=
        Outline.not_mem_numbers_of_lt (Nat.lt_succ_self _) os
      simp [first]
    | succ k =>
      have place : t.size + (k + 1) = t.size + 1 + k := by omega
      have bound : k < (Outline.slotsAll (t.size + 1) none os).length := by
        rw [Outline.length_slotsAll]
        omega
      have later : t.size + 1 + k ≠ t.size := by omega
      rw [List.getElem?_cons_succ, List.getElem?_cons_succ, Outline.getElem?_slotsAll _ (some t.size),
        place, if_neg later, List.getElem?_eq_getElem bound]
      simp only [Option.map_some, Option.getD_some]
      split <;> rfl

/-- A copy is what a new node becomes when the statements of the body have been copied behind it and are
    linked to it. -/
theorem Linked.copySubtree_eq {source : Tree} (h : source.Linked) (t : Tree) (id : NodeId) :
    t.copySubtree source id =
      let (t', copy) := t.alloc (source.node id)
      let (t', copies) := t'.copyAll source (source.body id)
      ((t'.setParents copies (some copy)).setBody copy copies, copy) := by
  obtain ⟨strictness, slots, numbers⟩ :=
    (t.alloc (source.node id)).1.copyAll_eq source (source.body id)
  have behind : ((t.alloc (source.node id)).1.copyAll source (source.body id)).1.slots = t.slots ++
      ({ node := source.node id } ::
        Outline.slotsAll (t.size + 1) none ((source.body id).map source.outline)).toArray := by
    rw [slots, size_alloc]
    simp [Tree.alloc]
  refine Prod.ext ?_ rfl
  show (t.graft (source.outline id)).1 = (Tree.setParents _ _ (some t.size)).setBody t.size _
  rw [numbers, size_alloc, h.outline_eq]
  exact (setBody_setParents_eq_graft (t := t) strictness behind).symm

/-! ## What a copy adds -/

/-- The number of a node in a copy of what stands at `id`: behind the old slots, at the place that the node
    has in the walk. -/
def copyNumber (t source : Tree) (id x : NodeId) : NodeId :=
  t.size + (id :: source.descendants id).idxOf x

/-- `t'` is `t` with a copy of the node `id` of `source` and of all that stands inside it. -/
structure CopiesTo (t t' source : Tree) (id : NodeId) : Prop where
  size : t'.size = t.size + (source.descendants id).length + 1
  /-- The new slots hold the copies in the order of the walk. -/
  numbers : (id :: source.descendants id).map (t.copyNumber source id) =
    List.range' t.size ((source.descendants id).length + 1)
  /-- The copy of the node itself stands nowhere. -/
  top : t'.slot t.size = source.renumbered (t.copyNumber source id) none id
  inside : ∀ x ∈ source.descendants id, t'.slot (t.copyNumber source id x) =
    source.renumbered (t.copyNumber source id) ((source.parent x).map (t.copyNumber source id)) x
  /-- Every link of a copy is the link to a copy. -/
  scopes : ∀ x ∈ source.descendants id, ∃ s ∈ id :: source.descendants id, source.parent x = some s
  bodies : ∀ x ∈ id :: source.descendants id, ∀ c ∈ source.body x, c ∈ source.descendants id
  old : ∀ i < t.size, t'.slot i = t.slot i
  strictness : t'.strictness = t.strictness
  linked : t'.Linked

namespace Linked

variable {source : Tree} {id : NodeId}

theorem map_copyNumber (h : source.Linked) (t : Tree) (id : NodeId) :
    (id :: source.descendants id).map (t.copyNumber source id) =
      List.range' t.size ((source.descendants id).length + 1) := by
  have distinct := h.nodup_preorder id
  rw [h.preorder_eq_descendants] at distinct
  refine List.ext_getElem (by simp) fun i inside _ => ?_
  rw [List.length_map] at inside
  rw [List.getElem_map, copyNumber, distinct.idxOf_getElem i inside, List.getElem_range']
  simp

/-- What stands in the body of a copied node is copied with it. -/
theorem mem_descendants_of_body (h : source.Linked) {x c : NodeId}
    (member : x ∈ id :: source.descendants id) (listed : c ∈ source.body x) :
    c ∈ source.descendants id := by
  have link := (h.parent_iff c x).2 listed
  have around : id ∈ source.lineage x := by
    rw [← h.preorder_eq_descendants] at member
    exact h.mem_preorder.1 member
  refine h.mem_descendants.2 ⟨h.mem_lineage_of_parent link around, ?_⟩
  rintro rfl
  exact h.not_mem_lineage_of_parent link around

/-- The scope around what stands inside a copied node is copied with it. -/
theorem exists_parent_of_descendant (h : source.Linked) {x : NodeId}
    (below : x ∈ source.descendants id) :
    ∃ s ∈ id :: source.descendants id, source.parent x = some s := by
  obtain ⟨around, other⟩ := h.mem_descendants.1 below
  rw [h.lineage_eq] at around
  rcases List.mem_cons.1 around with same | above
  · exact absurd same.symm other
  · cases link : source.parent x with
    | none => simp [link] at above
    | some s =>
      rw [link] at above
      refine ⟨s, ?_, rfl⟩
      rw [← h.preorder_eq_descendants]
      exact h.mem_preorder.2 above

/-- A copy is a whole and touches nothing else. -/
theorem copiesTo (h : source.Linked) {t : Tree} (fits : t.Linked) (id : NodeId) :
    t.CopiesTo (t.copySubtree source id).1 source id := by
  have first : t.copyNumber source id id = t.size := by simp [copyNumber]
  have row := h.map_copyNumber t id
  have laid := laidOut_graft (t := t) (source.outline id)
  rw [← first] at laid
  obtain ⟨top, inside⟩ := h.renumberedInside_of_laidOut laid (by
    rw [first, h.preorder_eq_descendants, row, List.length_cons])
  exact {
    size := by
      rw [copySubtree, size_graft, h.size_outline, h.preorder_eq_descendants, List.length_cons]
      rfl
    numbers := row
    top := by rw [← top, first]; rfl
    inside
    scopes := fun x => h.exists_parent_of_descendant
    bodies := fun x member c => h.mem_descendants_of_body member
    old := fun i below => slot_graft_of_lt _ below
    strictness := rfl
    linked := fits.graft _ }

/-- A copy says what the node says. -/
theorem outline_copySubtree (t source : Tree) (id : NodeId) :
    (t.copySubtree source id).1.outline t.size = source.outline id :=
  outlineUpTo_eq (laidOut_graft _) (by rw [copySubtree, size_graft]; omega)

end Linked

end Tree

/-- A copy of a node, from any tree into any tree or into the same one, gets the next numbers in the order
    of the walk, starting with the node itself, which stands nowhere. Each new slot holds the node that it
    is a copy of, with its links renumbered. All else stays as it is, and the links agree. The copy is
    printed like the node, under all options. It is made node by node: a new node is added, what stands in
    its body is copied behind it, and the copies are linked to it. -/
theorem copies_are_exact_and_isolated {t source : Tree} (linked : t.Linked) (linked' : source.Linked)
    (id : NodeId) :
    (t.copySubtree source id).2 = t.size ∧
      t.CopiesTo (t.copySubtree source id).1 source id ∧
      (∀ o, (t.copySubtree source id).1.renderNode (t.copySubtree source id).2 o =
        source.renderNode id o) ∧
      t.copySubtree source id =
        (let (t', copy) := t.alloc (source.node id)
        let (t', copies) := t'.copyAll source (source.body id)
        ((t'.setParents copies (some copy)).setBody copy copies, copy)) := by
  refine ⟨rfl, linked'.copiesTo linked id, fun o => ?_, linked'.copySubtree_eq t id⟩
  show (o.statementDoc 0 ((t.copySubtree source id).1.outline t.size)).render = _
  rw [Tree.Linked.outline_copySubtree, Tree.renderNode]

/-- A module whose class stands before its constant. -/
def moduleWithClass : Tree :=
  .ofOutlines (some "strict")
    [.mk (.moduleDef "A")
      [.mk (.classDef "B" (some "C")) [.mk { decl := .const { name := "D" } } []],
        .mk { decl := .const { name := "E", value := some "1" } } []]]

theorem copies_are_exact_and_isolated_moduleWithClass :
    moduleWithClass.Linked ∧
      moduleWithClass.CopiesTo (moduleWithClass.copySubtree moduleWithClass 1).1 moduleWithClass 1 ∧
      (moduleWithClass.copySubtree moduleWithClass 1).2 = 5 ∧
      [1, 2, 3, 4].map (moduleWithClass.copyNumber moduleWithClass 1) = [5, 6, 7, 8] ∧
      ((moduleWithClass.copySubtree moduleWithClass 1).1.slot 6).parent = some 5 ∧
      ((moduleWithClass.copySubtree moduleWithClass 1).1.slot 6).body = [7] ∧
      (moduleWithClass.copySubtree moduleWithClass 1).1.renderNode 5 { indentWidth := 4 } =
        "module A\n    class B < C\n        D\n    end\n    E = 1\nend" := by
  have linked : moduleWithClass.Linked := Tree.linked_ofOutlines _ _
  obtain ⟨number, copies, rendered, -⟩ := copies_are_exact_and_isolated linked linked 1
  have second : moduleWithClass.copyNumber moduleWithClass 1 2 = 6 := by decide +kernel
  have slot := copies.inside 2 (by decide +kernel)
  rw [second] at slot
  refine ⟨linked, copies, number, copies.numbers, ?_, ?_, ?_⟩
  · rw [slot]
    decide +kernel
  · rw [slot]
    decide +kernel
  · exact (rendered { indentWidth := 4 }).trans (by decide +kernel)

end InterfaceFile
