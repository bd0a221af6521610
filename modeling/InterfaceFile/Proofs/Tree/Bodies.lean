import InterfaceFile.Proofs.Tree.Links
import InterfaceFile.Proofs.Tree.Walks

/-!
# New bodies, scope by scope

Rewriting a tree gives new bodies to its scopes, one after the other from the root down. A body is
taken if it lists statements that the scope has and new nodes that stand nowhere. Nothing but links
changes, and no scope comes to stand under the root that did not stand there before.
-/

namespace InterfaceFile.Tree

variable {t : Tree}

/-- The statements of a body, without its empty lines. -/
def statements (t : Tree) (body : List NodeId) : List NodeId :=
  body.filter fun id => !(t.node id).isBlank

/-! ## One body -/

@[simp]
theorem node_setParents (ids : List NodeId) (p : Option NodeId) (i : NodeId) :
    (t.setParents ids p).node i = t.node i := by
  induction ids generalizing t with
  | nil => rfl
  | cons id ids ih => exact ih.trans (node_setParent id p i)

@[simp]
theorem strictness_setParents (ids : List NodeId) (p : Option NodeId) :
    (t.setParents ids p).strictness = t.strictness := by
  induction ids generalizing t with
  | nil => rfl
  | cons id ids ih => exact ih

/-- The tree that a new body makes, where it is taken. -/
theorem eq_of_replaceBody {u : Tree} {scope : NodeId} {ids : List NodeId}
    (run : t.replaceBody scope ids = .ok u) :
    u = ((t.setParents (t.body scope) none).setParents ids scope).setBody scope ids := by
  unfold replaceBody at run
  split at run
  · cases run
  · cases checked : t.checkMembers scope [] ids with
    | error fault =>
      rw [checked] at run
      cases run
    | ok =>
      rw [checked] at run
      exact (Except.ok.inj run).symm

theorem strictness_detach {u : Tree} {child : NodeId} (run : t.detach child = .ok u) :
    u.strictness = t.strictness := by
  unfold detach at run
  split at run
  · cases run
    rfl
  · split at run
    · cases run
      rfl
    · cases run

theorem strictness_insert {u : Tree} {child scope : NodeId} {index : Nat}
    (run : t.insert child scope index = .ok u) : u.strictness = t.strictness := by
  unfold insert at run
  cases check : t.checkAttachable child scope with
  | error fault =>
    rw [check] at run
    cases run
  | ok =>
    cases out : t.detach child with
    | error fault =>
      simp only [check, out] at run
      cases run
    | ok d =>
      simp only [check, out] at run
      cases run
      exact (strictness_detach out : d.strictness = t.strictness)

theorem strictness_replaceBody {u : Tree} {scope : NodeId} {ids : List NodeId}
    (run : t.replaceBody scope ids = .ok u) : u.strictness = t.strictness := by
  rw [eq_of_replaceBody run]
  exact (strictness_setParents _ _).trans (strictness_setParents _ _)

theorem node_replaceBody {u : Tree} {scope : NodeId} {ids : List NodeId}
    (run : t.replaceBody scope ids = .ok u) (i : NodeId) : u.node i = t.node i := by
  rw [eq_of_replaceBody run]
  simp

theorem lt_size_of_isScope {id : NodeId} (opens : (t.node id).isScope = true) : id < t.size := by
  by_contra outside
  rw [node, slot_of_size_le (Nat.le_of_not_lt outside)] at opens
  cases opens

/-- One scope gets a new body and nothing else changes but the links of what comes and goes. -/
structure Relisted (t t' : Tree) (scope : NodeId) (ids : List NodeId) : Prop
    extends Rebodied t t' scope ids where
  linked : t'.Linked
  node : ∀ i, t'.node i = t.node i
  strictness : t'.strictness = t.strictness

/-- A scope takes the statements that it has and nodes that stand nowhere and not around it. -/
theorem Linked.replaceBody_ok (h : t.Linked) {scope : NodeId} {ids : List NodeId}
    (opens : (t.node scope).isScope = true) (distinct : ids.Nodup)
    (members : ∀ id ∈ ids, t.parent id = some scope ∨
      (t.parent id = none ∧ id < t.size ∧ id ∉ t.lineage scope ∧ id ≠ root)) :
    ∃ t', t.replaceBody scope ids = .ok t' ∧ Relisted t t' scope ids := by
  have inside : ∀ id ∈ ids, id < t.size := by
    intro id listed
    rcases members id listed with link | ⟨-, bound, -⟩
    · exact h.child_lt link
    · exact bound
  have check : t.checkMembers scope [] ids = .ok () := by
    refine checkMembers_eq_ok.2 ⟨distinct, fun id listed => ⟨by simp, ?_⟩⟩
    apply h.checkMember_eq_ok.2
    rcases members id listed with link | ⟨nowhere, -, around, top⟩
    · exact .inl link
    · exact .inr ⟨nowhere, checkAttachable_eq_ok.2 ⟨top, opens, around⟩⟩
  have scopeLt := lt_size_of_isScope opens
  rcases h.replaceBody_eq scopeLt inside with ⟨fault, refused⟩ | ⟨-, t', done, changed⟩
  · rw [replaceBody, if_neg (by simp [opens]), check] at refused
    cases refused
  · exact ⟨t', done, changed, changed.linked h inside check, node_replaceBody done,
      strictness_replaceBody done⟩

/-! ## The scopes of a tree -/

namespace Linked

theorem scopes_eq (h : t.Linked) :
    t.scopes = (t.preorder root).filter fun id => (t.node id).isScope := by
  rw [scopes, h.preorder_eq_descendants]

theorem mem_scopes (h : t.Linked) {id : NodeId} :
    id ∈ t.scopes ↔ root ∈ t.lineage id ∧ (t.node id).isScope = true := by
  rw [h.scopes_eq, List.mem_filter, h.mem_preorder]

/-- What stands in a body stands where the scope stands. -/
theorem root_mem_lineage (h : t.Linked) {scope id : NodeId} (listed : id ∈ t.body scope)
    (attached : root ∈ t.lineage scope) : root ∈ t.lineage id :=
  h.mem_lineage_of_parent ((h.parent_iff id scope).2 listed) attached

/-- The way up is transitive. -/
theorem mem_lineage_trans (h : t.Linked) {x y z : NodeId} (one : x ∈ t.lineage y)
    (two : y ∈ t.lineage z) : x ∈ t.lineage z := by
  induction y using h.acyclic.induction with
  | _ y ih =>
    rw [h.lineage_eq] at one
    rcases List.mem_cons.1 one with rfl | above
    · exact two
    · cases link : t.parent y with
      | none => simp [link] at above
      | some scope =>
        rw [link] at above
        exact ih scope link above (h.parent_mem_lineage two link)

/-- A node without a body stands around nothing else. -/
theorem not_mem_lineage_of_body (h : t.Linked) {id x : NodeId} (leaf : t.body id = [])
    (other : x ≠ id) : id ∉ t.lineage x := by
  intro around
  rcases h.mem_lineage_cases around with same | ⟨child, listed, -⟩
  · exact other same
  · simp [leaf] at listed

/-- A listing has every scope before what stands inside it. -/
theorem pairwise_preorder (h : t.Linked) (id : NodeId) :
    (t.preorder id).Pairwise fun x y => y ∉ t.lineage x := by
  induction id using h.descent.induction with
  | _ id ih =>
    rw [h.preorder_eq, List.pairwise_cons, List.pairwise_flatMap]
    refine ⟨fun y member => ?_, ih, ?_⟩
    · obtain ⟨child, listed, inside⟩ := List.mem_flatMap.1 member
      have link := (h.parent_iff child id).2 listed
      have around := h.mem_preorder.1 inside
      intro back
      exact h.not_mem_lineage_of_parent link (h.mem_lineage_trans around back)
    · refine (h.nodup id).pairwise_of_forall_ne fun a ha b hb different x inA y inB around => ?_
      have pa := (h.parent_iff a id).2 ha
      have pb := (h.parent_iff b id).2 hb
      have outer := h.mem_lineage_trans (h.mem_preorder.1 inB) around
      exact different (h.lineage_sibling (h.mem_preorder.1 inA) outer pa pb)

/-- The scopes of a tree are listed from the root down. -/
theorem pairwise_scopes (h : t.Linked) : t.scopes.Pairwise fun x y => y ∉ t.lineage x := by
  rw [h.scopes_eq]
  exact (h.pairwise_preorder root).filter _

/-- If the ways up that matter are ways up of another tree, then what stands under the root stands
    under the root there. -/
theorem attached_of_links {t' : Tree} (h : t.Linked) (h' : t'.Linked) {P : NodeId → Prop}
    (links : ∀ id scope, P id → t'.parent id = some scope → t.parent id = some scope ∧ P scope)
    {id : NodeId} (start : P id) (attached : root ∈ t'.lineage id) : root ∈ t.lineage id := by
  induction id using h'.acyclic.induction with
  | _ id ih =>
    rw [h'.lineage_eq] at attached
    rcases List.mem_cons.1 attached with rfl | above
    · exact h.mem_lineage_self _
    · cases link : t'.parent id with
      | none => simp [link] at above
      | some scope =>
        rw [link] at above
        obtain ⟨kept, outer⟩ := links id scope start link
        exact h.mem_lineage_of_parent kept (ih scope link outer above)

end Linked

/-! ## All bodies -/

/-- A run over all nodes of a list succeeds if every step does. The invariant knows the nodes that
    have had their turn. -/
theorem foldlM_reaches {f : Tree → NodeId → Except Fault Tree} {I : List NodeId → Tree → Prop}
    {all : List NodeId}
    (step : ∀ done id rest u, all = done ++ id :: rest → I done u →
      ∃ u', f u id = .ok u' ∧ I (done ++ [id]) u')
    (start : I [] t) : ∃ t', all.foldlM f t = .ok t' ∧ I all t' := by
  suffices run : ∀ rest done u, all = done ++ rest → I done u →
      ∃ t', rest.foldlM f u = .ok t' ∧ I all t' from run all [] t rfl start
  intro rest
  induction rest with
  | nil =>
    intro done u split holds
    rw [List.append_nil] at split
    exact ⟨u, rfl, split ▸ holds⟩
  | cons id rest ih =>
    intro done u split holds
    obtain ⟨u', ran, next⟩ := step done id rest u split holds
    obtain ⟨t', runs, last⟩ := ih (done ++ [id]) u' (by rw [split, List.append_assoc]; rfl) next
    refine ⟨t', ?_, last⟩
    rw [List.foldlM_cons, ran]
    exact runs

/-- A run that changes nothing at any node changes nothing. -/
theorem foldlM_eq_self {f : Tree → NodeId → Except Fault Tree} {all : List NodeId}
    (same : ∀ id ∈ all, f t id = .ok t) : all.foldlM f t = .ok t := by
  induction all with
  | nil => rfl
  | cons id rest ih =>
    obtain ⟨here, later⟩ := List.forall_mem_cons.1 same
    rw [List.foldlM_cons, here]
    exact ih later

end InterfaceFile.Tree
