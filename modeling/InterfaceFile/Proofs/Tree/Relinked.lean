import InterfaceFile.Proofs.Tree.Bodies
import InterfaceFile.Proofs.Tree.Built

/-!
# What a change of links leaves alone

A call that moves a node, or gives a scope a new body, changes the links that it names and no others.
The old and the new scope of a node may be the same, so the index counts the statements that are there
without the node; and a statement that a new body leaves out keeps all that stands inside it.
-/

namespace InterfaceFile

namespace Tree

variable {t t' : Tree} {child scope : NodeId} {index : Nat} {ids : List NodeId}

/-- The statements of a body without `child`. -/
def others (t : Tree) (scope child : NodeId) : List NodeId :=
  (t.body scope).filter (· != child)

/-- Nothing but links differs. -/
structure SamePayloads (t t' : Tree) : Prop where
  size : t'.size = t.size
  node : ∀ i, t'.node i = t.node i
  strictness : t'.strictness = t.strictness

/-- The tree `t'` is `t` after `child` has moved to a place in the body of `scope`. -/
structure MovesTo (t t' : Tree) (child scope : NodeId) (index : Nat) : Prop
    extends SamePayloads t t' where
  body_scope : t'.body scope =
    (t.others scope child).insertIdx (min index (t.others scope child).length) child
  /-- The body that listed the node before. -/
  body_left : ∀ s, t.parent child = some s → s ≠ scope → t'.body s = t.others s child
  body_other : ∀ s, t.parent child ≠ some s → s ≠ scope → t'.body s = t.body s
  parent_child : t'.parent child = some scope
  parent_other : ∀ i, i ≠ child → t'.parent i = t.parent i

/-- The tree `t'` is `t` after `scope` has taken the body `ids`. -/
structure TakesBody (t t' : Tree) (scope : NodeId) (ids : List NodeId) : Prop
    extends SamePayloads t t' where
  body_scope : t'.body scope = ids
  body_other : ∀ s, s ≠ scope → t'.body s = t.body s
  parent_listed : ∀ i ∈ ids, t'.parent i = some scope
  parent_left : ∀ i ∈ t.body scope, i ∉ ids → t'.parent i = none
  parent_other : ∀ i, i ∉ ids → i ∉ t.body scope → t'.parent i = t.parent i
  /-- What no longer stands in the body is what it was, with the same nodes inside it. -/
  left_whole : ∀ i ∈ t.body scope, i ∉ ids →
    t'.outline i = t.outline i ∧ t'.descendants i = t.descendants i

/-! ## Moves -/

namespace Linked

/-- A body loses only the node that it is asked to lose, and only if it lists it. -/
theorem erase_body (h : t.Linked) (s child : NodeId) : (t.body s).erase child = t.others s child :=
  (h.nodup s).erase_eq_filter child

theorem others_eq_body (h : t.Linked) {s : NodeId} (elsewhere : t.parent child ≠ some s) :
    t.others s child = t.body s := by
  refine List.filter_eq_self.2 fun i listed => ?_
  have other : i ≠ child := by
    rintro rfl
    exact elsewhere ((h.parent_iff i s).2 listed)
  simpa using other

theorem movesTo (h : t.Linked) (moved : Moved t t' child scope index)
    (strictness : t'.strictness = t.strictness) : t.MovesTo t' child scope index where
  size := moved.size
  node := moved.node
  strictness := strictness
  body_scope := by rw [moved.body, if_pos rfl, h.erase_body]
  body_left := by
    intro s _ other
    rw [moved.body, if_neg other, h.erase_body]
  body_other := by
    intro s elsewhere other
    rw [moved.body, if_neg other, h.erase_body, h.others_eq_body elsewhere]
  parent_child := by rw [moved.parent, if_pos rfl]
  parent_other := by
    intro i other
    rw [moved.parent, if_neg other]

theorem insert_movesTo (h : t.Linked) (hc : child < t.size) (hs : scope < t.size)
    (run : t.insert child scope index = .ok t') : t.MovesTo t' child scope index := by
  rcases h.insert_eq hc hs index with ⟨fault, -, refused⟩ | ⟨-, t'', done, moved⟩
  · rw [refused] at run
    cases run
  · obtain rfl := Except.ok.inj (done.symm.trans run)
    exact h.movesTo moved (strictness_insert run)

/-- All indices past the other statements of a body mean its end. -/
theorem insert_congr_of_length_le (h : t.Linked) {index index' : Nat}
    (past : (t.others scope child).length ≤ index) (past' : (t.others scope child).length ≤ index') :
    t.insert child scope index = t.insert child scope index' := by
  unfold insert
  cases t.checkAttachable child scope with
  | error fault => rfl
  | ok =>
    obtain ⟨d, run, -, -, body, -⟩ := h.detach child
    have same : min index (d.body scope).length = min index' (d.body scope).length := by
      rw [body, h.erase_body, Nat.min_eq_right past, Nat.min_eq_right past']
    simp only [run]
    show Except.ok _ = Except.ok _
    rw [same]

end Linked

theorem length_others_le (t : Tree) (scope child : NodeId) :
    (t.others scope child).length ≤ (t.body scope).length :=
  List.length_filter_le _ _

theorem MovesTo.body_of_length_le (moved : t.MovesTo t' child scope index)
    (past : (t.others scope child).length ≤ index) :
    t'.body scope = t.others scope child ++ [child] := by
  rw [moved.body_scope, Nat.min_eq_right past, List.insertIdx_length_self]

/-! ## New bodies -/

namespace Linked

/-- A node with all that stands inside it is the same where its payloads and bodies are. -/
theorem inside_congr (h : t.Linked) (h' : t'.Linked) {id : NodeId}
    (node : ∀ i, id ∈ t.lineage i → t'.node i = t.node i)
    (body : ∀ i, id ∈ t.lineage i → t'.body i = t.body i) :
    t'.outline id = t.outline id ∧ t'.preorder id = t.preorder id := by
  induction id using h.descent.induction with
  | _ id ih =>
    have deeper : ∀ c ∈ t.body id, t'.outline c = t.outline c ∧ t'.preorder c = t.preorder c := by
      intro c listed
      have above : ∀ i, c ∈ t.lineage i → id ∈ t.lineage i :=
        fun i inside => h.parent_mem_lineage inside ((h.parent_iff c id).2 listed)
      exact ih c listed (fun i inside => node i (above i inside))
        fun i inside => body i (above i inside)
    have own := body id (h.mem_lineage_self id)
    rw [h'.outline_eq, h.outline_eq, h'.preorder_eq, h.preorder_eq, node id (h.mem_lineage_self id),
      own]
    have inside : (t.body id).flatMap t'.preorder = (t.body id).flatMap t.preorder :=
      List.flatMap_congr fun c listed => (deeper c listed).2
    rw [inside]
    exact ⟨congrArg (Outline.mk _) (List.map_congr_left fun c listed => (deeper c listed).1), rfl⟩

theorem takesBody (h : t.Linked) (hs : scope < t.size) (hi : ∀ id ∈ ids, id < t.size)
    (run : t.replaceBody scope ids = .ok t') : t.TakesBody t' scope ids := by
  have linked := h.linked_replaceBody hs hi run
  rcases h.replaceBody_eq hs hi with ⟨fault, refused⟩ | ⟨-, t'', done, changed⟩
  · rw [refused] at run
    cases run
  obtain rfl := Except.ok.inj (done.symm.trans run)
  have node := node_replaceBody run
  have body_other : ∀ s, s ≠ scope → t''.body s = t.body s := by
    intro s other
    rw [changed.body, if_neg other]
  exact {
    size := changed.size
    node
    strictness := strictness_replaceBody run
    body_scope := by rw [changed.body, if_pos rfl]
    body_other
    parent_listed := by
      intro i listed
      rw [changed.parent, if_pos listed]
    parent_left := by
      intro i old gone
      rw [changed.parent, if_neg gone, if_pos old]
    parent_other := by
      intro i gone never
      rw [changed.parent, if_neg gone, if_neg never]
    left_whole := by
      intro i old _
      -- The scope stands around `i`, so nothing inside `i` is the scope.
      have outside := h.not_mem_lineage_of_parent ((h.parent_iff i scope).2 old)
      obtain ⟨outline, preorder⟩ := h.inside_congr linked (fun x _ => node x)
        fun x inside => body_other x (by
          rintro rfl
          exact outside inside)
      refine ⟨outline, ?_⟩
      rw [linked.preorder_eq_descendants, h.preorder_eq_descendants] at preorder
      exact List.tail_eq_of_cons_eq preorder }

end Linked

end Tree

/-- A move takes the node out of the body that listed it and puts it at the place that is counted among
    the other statements of the new scope. An `attach` is a move to the end, wherever the node stands
    before. A new body is the list that is given, with links to match. What comes of a move or a new
    body differs from the tree before in nothing else. -/
theorem moves_change_exactly_what_they_say {t : Tree} (h : Built t) {scope : NodeId}
    (hs : scope < t.size) :
    (∀ child < t.size, ∀ index t', t.insert child scope index = .ok t' →
      t.MovesTo t' child scope index) ∧
    (∀ child < t.size, ∀ index ≥ (t.others scope child).length,
      t.attach child scope = t.insert child scope index ∧
        ∀ t', t.attach child scope = .ok t' →
          t.MovesTo t' child scope index ∧ t'.body scope = t.others scope child ++ [child]) ∧
    ∀ ids t', (∀ id ∈ ids, id < t.size) → t.replaceBody scope ids = .ok t' →
      t.TakesBody t' scope ids := by
  have linked := h.linked
  refine ⟨fun child hc index t' run => linked.insert_movesTo hc hs run, ?_,
    fun ids t' hi run => linked.takesBody hs hi run⟩
  intro child hc index past
  have same : t.attach child scope = t.insert child scope index :=
    linked.insert_congr_of_length_le (t.length_others_le scope child) past
  refine ⟨same, fun t' run => ?_⟩
  have moved := linked.insert_movesTo hc hs (same.symm.trans run)
  exact ⟨moved, moved.body_of_length_le past⟩

/-- A module with a class and a constant. -/
def classAndConstant : Tree :=
  let t := (Edit.push 0 (.moduleDef "A")).apply .empty
  let t := (Edit.push 1 (.classDef "B" none)).apply t
  (Edit.push 1 { decl := .const { name := "C" } }).apply t

theorem moves_change_exactly_what_they_say_classAndConstant :
    Built classAndConstant ∧ classAndConstant.body 1 = [2, 3] ∧
      (∃ t', classAndConstant.insert 2 1 9 = .ok t' ∧ t'.body 1 = [3, 2] ∧
        classAndConstant.MovesTo t' 2 1 9) ∧
      (∃ t', classAndConstant.attach 2 1 = .ok t' ∧ t'.body 1 = [3] ++ [2]) ∧
      ∃ t', classAndConstant.replaceBody 1 [3] = .ok t' ∧ t'.parent 2 = none ∧
        classAndConstant.TakesBody t' 1 [3] := by
  have one := Built.empty.edit (.push 0 (.moduleDef "A")) (by decide)
  have two := one.edit (.push 1 (.classDef "B" none)) (by decide)
  have built : Built classAndConstant :=
    two.edit (.push 1 { decl := .const { name := "C" } }) (by decide)
  obtain ⟨moves, ends, takes⟩ :=
    moves_change_exactly_what_they_say built (by decide : 1 < classAndConstant.size)
  have inserted : ∃ t', classAndConstant.insert 2 1 9 = .ok t' ∧ t'.body 1 = [3, 2] :=
    ⟨_, rfl, by decide⟩
  have taken : ∃ t', classAndConstant.replaceBody 1 [3] = .ok t' ∧ t'.parent 2 = none :=
    ⟨_, rfl, by decide⟩
  obtain ⟨t', run, body⟩ := inserted
  obtain ⟨u, rebodied, free⟩ := taken
  obtain ⟨same, attached⟩ := ends 2 (by decide) 9 (by decide)
  exact ⟨built, by decide, ⟨t', run, body, moves 2 (by decide) 9 t' run⟩,
    ⟨t', same.trans run, (attached t' (same.trans run)).2⟩,
    u, rebodied, free, takes [3] u (by decide) rebodied⟩

end InterfaceFile
