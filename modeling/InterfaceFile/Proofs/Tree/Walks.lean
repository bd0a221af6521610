import InterfaceFile.Proofs.Tree.Lineage
import InterfaceFile.Tree.Outline

/-!
# Walks down a tree

Walks down are bounded by the number of slots, too. Where the links agree the bound does not show:
a walk that lists what stands inside a node is the recursive listing, and a nested statement is made
of the nested statements of its body.
-/

namespace InterfaceFile.Tree

variable {t : Tree}

/-- How far a node is from the top, itself counted. -/
def depth (t : Tree) (id : NodeId) : Nat :=
  (t.lineage id).length

/-- Puts something together from the leaves up, down to `n` levels inside a node. -/
def foldUpTo {α : Type} (t : Tree) (f : NodeId → List α → α) : Nat → NodeId → α
  | 0, id => f id []
  | n + 1, id => f id ((t.body id).map (t.foldUpTo f n))

/-- A node and all that stands inside it, each scope before its body. -/
def preorder (t : Tree) (id : NodeId) : List NodeId :=
  t.foldUpTo (fun id inside => id :: inside.flatten) t.size id

theorem outlineUpTo_eq_foldUpTo (n : Nat) (id : NodeId) :
    t.outlineUpTo n id = t.foldUpTo (fun id body => .mk (t.node id) body) n id := by
  induction n generalizing id with
  | zero => rfl
  | succ n ih =>
    rw [outlineUpTo, foldUpTo]
    congr 1
    exact List.map_congr_left fun child _ => ih child

namespace Linked

theorem depth_pos (h : t.Linked) (id : NodeId) : 0 < t.depth id := by
  rw [depth, h.lineage_eq]
  simp

theorem depth_le_size (h : t.Linked) {id : NodeId} (inside : id < t.size) : t.depth id ≤ t.size :=
  (h.climbs_lineage id).length_le_size h inside

theorem depth_of_mem_body (h : t.Linked) {id child : NodeId} (member : child ∈ t.body id) :
    t.depth child = t.depth id + 1 := by
  rw [depth, h.lineage_eq, (h.parent_iff child id).2 member]
  simp [depth]

/-- Going down comes to an end, too. -/
theorem descent (h : t.Linked) : WellFounded fun child id => child ∈ t.body id := by
  refine Subrelation.wf ?_ (measure fun id => t.size - t.depth id).wf
  intro child id member
  have deeper := h.depth_of_mem_body member
  have bound := h.depth_le_size (h.bounded id child member)
  show t.size - t.depth child < t.size - t.depth id
  omega

/-- A walk down is whole if its bound and the depth of its start make up the number of slots. -/
theorem foldUpTo_eq {α : Type} (h : t.Linked) (f : NodeId → List α → α) {n m : Nat} {id : NodeId}
    (hn : t.size ≤ n + t.depth id) (hm : t.size ≤ m + t.depth id) :
    t.foldUpTo f n id = t.foldUpTo f m id := by
  have bottom : ∀ i, t.size ≤ t.depth i → t.body i = [] := by
    intro i deep
    rw [List.eq_nil_iff_forall_not_mem]
    intro child member
    have deeper := h.depth_of_mem_body member
    have bound := h.depth_le_size (h.bounded i child member)
    omega
  induction n generalizing m id with
  | zero =>
    cases m with
    | zero => rfl
    | succ m => simp [foldUpTo, bottom id (by omega)]
  | succ n ih =>
    cases m with
    | zero => simp [foldUpTo, bottom id (by omega)]
    | succ m =>
      rw [foldUpTo, foldUpTo]
      congr 1
      refine List.map_congr_left fun child member => ?_
      have deeper := h.depth_of_mem_body member
      exact ih (by omega) (by omega)

/-- A whole walk puts a node together with whole walks of its body. -/
theorem foldUpTo_size {α : Type} (h : t.Linked) (f : NodeId → List α → α) (id : NodeId) :
    t.foldUpTo f t.size id = f id ((t.body id).map (t.foldUpTo f t.size)) := by
  obtain ⟨n, hn⟩ := Nat.exists_eq_succ_of_ne_zero (Nat.pos_iff_ne_zero.1 h.root_lt)
  conv_lhs => rw [hn, foldUpTo]
  congr 1
  refine List.map_congr_left fun child member => ?_
  have deeper := h.depth_of_mem_body member
  have positive := h.depth_pos id
  exact h.foldUpTo_eq f (by omega) (by omega)

/-- A nested statement is its node with the nested statements of its body. -/
theorem outline_eq (h : t.Linked) (id : NodeId) :
    t.outline id = .mk (t.node id) ((t.body id).map t.outline) := by
  have fold : ∀ i, t.outline i = t.foldUpTo (fun i body => .mk (t.node i) body) t.size i :=
    fun i => outlineUpTo_eq_foldUpTo t.size i
  rw [fold, h.foldUpTo_size]
  congr 1
  exact List.map_congr_left fun child _ => (fold child).symm

theorem preorder_eq (h : t.Linked) (id : NodeId) :
    t.preorder id = id :: (t.body id).flatMap t.preorder := by
  rw [preorder, h.foldUpTo_size]
  rfl

/-- What stands around a node inside `id` is `id`, or stands in a statement of its body. -/
theorem mem_lineage_cases (h : t.Linked) {id x : NodeId} (member : id ∈ t.lineage x) :
    x = id ∨ ∃ child ∈ t.body id, child ∈ t.lineage x := by
  induction x using h.acyclic.induction with
  | _ x ih =>
    rw [h.lineage_eq] at member
    rcases List.mem_cons.1 member with same | above
    · exact .inl same.symm
    · refine .inr ?_
      cases link : t.parent x with
      | none => simp [link] at above
      | some scope =>
        rw [link] at above
        rcases ih scope link above with rfl | ⟨child, listed, around⟩
        · exact ⟨x, (h.parent_iff x scope).1 link, h.mem_lineage_self x⟩
        · exact ⟨child, listed, h.mem_lineage_of_parent link around⟩

/-- The listing of a node holds exactly what has the node among the scopes around it. -/
theorem mem_preorder (h : t.Linked) {id x : NodeId} : x ∈ t.preorder id ↔ id ∈ t.lineage x := by
  induction id using h.descent.induction with
  | _ id ih =>
    rw [h.preorder_eq, List.mem_cons, List.mem_flatMap]
    constructor
    · rintro (rfl | ⟨child, listed, inside⟩)
      · exact h.mem_lineage_self x
      · exact h.parent_mem_lineage ((ih child listed).1 inside) ((h.parent_iff child id).2 listed)
    · intro around
      rcases h.mem_lineage_cases around with same | ⟨child, listed, inside⟩
      · exact .inl same
      · exact .inr ⟨child, listed, (ih child listed).2 inside⟩

/-- Two scopes around one node that stand in the same body are the same. -/
theorem lineage_sibling (h : t.Linked) {x a b scope : NodeId} (ha : a ∈ t.lineage x)
    (hb : b ∈ t.lineage x) (pa : t.parent a = some scope) (pb : t.parent b = some scope) :
    a = b := by
  induction x using h.acyclic.induction with
  | _ x ih =>
    rw [h.lineage_eq] at ha hb
    cases link : t.parent x with
    | none =>
      simp only [link, List.mem_singleton] at ha hb
      rw [ha, hb]
    | some outer =>
      simp only [link, List.mem_cons] at ha hb
      rcases ha with rfl | ha <;> rcases hb with rfl | hb
      · rfl
      · obtain rfl : outer = scope := Option.some.inj (link.symm.trans pa)
        exact absurd hb (h.not_mem_lineage_of_parent pb)
      · obtain rfl : outer = scope := Option.some.inj (link.symm.trans pb)
        exact absurd ha (h.not_mem_lineage_of_parent pa)
      · exact ih outer link ha hb

/-- The listing of a node holds nothing twice. -/
theorem nodup_preorder (h : t.Linked) (id : NodeId) : (t.preorder id).Nodup := by
  induction id using h.descent.induction with
  | _ id ih =>
    rw [h.preorder_eq, List.nodup_cons, List.nodup_flatMap]
    refine ⟨fun again => ?_, ih, ?_⟩
    · obtain ⟨child, listed, inside⟩ := List.mem_flatMap.1 again
      exact h.not_mem_lineage_of_parent ((h.parent_iff child id).2 listed) (h.mem_preorder.1 inside)
    · refine (h.nodup id).pairwise_of_forall_ne fun a ha b hb different => ?_
      intro x inA inB
      have pa := (h.parent_iff a id).2 ha
      have pb := (h.parent_iff b id).2 hb
      exact different (h.lineage_sibling (h.mem_preorder.1 inA) (h.mem_preorder.1 inB) pa pb)

theorem lt_of_mem_preorder (h : t.Linked) {id x : NodeId} (inside : id < t.size)
    (member : x ∈ t.preorder id) : x < t.size := by
  have around := h.mem_preorder.1 member
  rw [h.lineage_eq] at around
  cases link : t.parent x with
  | none =>
    simp only [link, List.mem_singleton] at around
    exact around ▸ inside
  | some scope => exact h.child_lt link

theorem length_preorder_le (h : t.Linked) {id : NodeId} (inside : id < t.size) :
    (t.preorder id).length ≤ t.size := by
  have sub : (t.preorder id).toFinset ⊆ Finset.range t.size := by
    intro x member
    exact Finset.mem_range.2 (h.lt_of_mem_preorder inside (List.mem_toFinset.1 member))
  have count := Finset.card_le_card sub
  rwa [List.toFinset_card_of_nodup (h.nodup_preorder id), Finset.card_range] at count

/-- The walk with a stack lists the listings of the nodes on it, as far as its bound goes. -/
theorem visit_eq (h : t.Linked) (n : Nat) (stack : List NodeId) :
    t.visit n stack = (stack.flatMap t.preorder).take n := by
  induction n generalizing stack with
  | zero => simp [visit]
  | succ n ih =>
    cases stack with
    | nil => simp [visit]
    | cons id stack =>
      rw [visit, ih, List.flatMap_cons, h.preorder_eq, List.flatMap_append]
      rfl

/-- The walk with a stack ends before its bound, so a larger one changes nothing. -/
theorem visit_body (h : t.Linked) (id : NodeId) {n : Nat} (enough : t.size ≤ n) :
    t.visit n (t.body id) = (t.body id).flatMap t.preorder := by
  rw [h.visit_eq]
  refine List.take_of_length_le ?_
  by_cases inside : id < t.size
  · have short := h.length_preorder_le inside
    rw [h.preorder_eq, List.length_cons] at short
    omega
  · simp [body_of_size_le (Nat.le_of_not_lt inside)]

theorem descendants_eq (h : t.Linked) (id : NodeId) :
    t.descendants id = (t.body id).flatMap t.preorder :=
  h.visit_body id (Nat.le_refl _)

/-- The walk meets a node and then what stands inside it. -/
theorem preorder_eq_descendants (h : t.Linked) (id : NodeId) :
    t.preorder id = id :: t.descendants id := by
  rw [h.preorder_eq, h.descendants_eq]

/-- What stands inside a node is what has the node around it. -/
theorem mem_descendants (h : t.Linked) {id x : NodeId} :
    x ∈ t.descendants id ↔ id ∈ t.lineage x ∧ x ≠ id := by
  have distinct := h.nodup_preorder id
  rw [← h.mem_preorder, h.preorder_eq_descendants, List.mem_cons]
  rw [h.preorder_eq_descendants] at distinct
  constructor
  · intro inside
    refine ⟨.inr inside, ?_⟩
    rintro rfl
    exact (List.nodup_cons.1 distinct).1 inside
  · rintro ⟨same | inside, other⟩
    · exact absurd same other
    · exact inside

end Linked

end InterfaceFile.Tree
