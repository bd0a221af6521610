import InterfaceFile.Proofs.Tree.Bodies
import InterfaceFile.Proofs.Tree.Built

/-!
# Walks with a stack

The walk down a tree keeps the nodes that it has still to visit on a stack. `Walks` is that walk
without a bound on its steps, so a tree with a cycle would have none from there. Where the links
agree it comes to an end from every node, and what it lists is the recursive listing.
-/

namespace InterfaceFile.Tree

variable {t : Tree}

/-- The walk that begins with the given stack comes to an end, with `listed` visited on the way: the
    node on top is visited, and its body takes its place on the stack. -/
inductive Walks (t : Tree) : List NodeId → List NodeId → Prop
  | done : Walks t [] []
  | visit {id : NodeId} {stack listed : List NodeId} (rest : Walks t (t.body id ++ stack) listed) :
      Walks t (id :: stack) (id :: listed)

/-- `x` is not `id`, and the way up from `x` passes through `id`. -/
def StandsIn (t : Tree) (x id : NodeId) : Prop :=
  x ≠ id ∧ ∃ path, t.Climbs x path ∧ id ∈ path

/-- A walk visits the same nodes each time. -/
theorem Walks.unique {stack one two : List NodeId} (h : t.Walks stack one) (k : t.Walks stack two) :
    one = two := by
  induction h generalizing two with
  | done =>
    cases k
    rfl
  | visit _ ih =>
    cases k with
    | visit rest => rw [ih rest]

/-- What is left on the stack is visited after what stands on it. -/
theorem Walks.append {stack more one two : List NodeId} (h : t.Walks stack one)
    (k : t.Walks more two) : t.Walks (stack ++ more) (one ++ two) := by
  induction h with
  | done => exact k
  | visit _ ih =>
    rw [List.append_assoc] at ih
    exact .visit ih

/-- The walk over nodes visits what the walks from each of them visit. -/
theorem walks_flatMap {f : NodeId → List NodeId} (ids : List NodeId)
    (each : ∀ id ∈ ids, t.Walks [id] (f id)) : t.Walks ids (ids.flatMap f) := by
  induction ids with
  | nil => exact .done
  | cons id ids ih =>
    have first := each id List.mem_cons_self
    have rest := ih fun x member => each x (List.mem_cons_of_mem _ member)
    rw [List.flatMap_cons]
    exact first.append rest

/-- There is only one way up. -/
theorem Climbs.unique {id : NodeId} {one two : List NodeId} (h : t.Climbs id one)
    (k : t.Climbs id two) : one = two := by
  rw [← h.lineageUpTo_eq (Nat.le_succ_of_le (Nat.le_max_left _ two.length)),
    k.lineageUpTo_eq (Nat.le_succ_of_le (Nat.le_max_right _ _))]

namespace Linked

/-- The walk from one node comes to an end. -/
theorem walks_singleton (h : t.Linked) (id : NodeId) : t.Walks [id] (t.preorder id) := by
  induction id using h.descent.induction with
  | _ id ih =>
    rw [h.preorder_eq]
    refine .visit ?_
    rw [List.append_nil]
    exact walks_flatMap _ ih

theorem walks_descendants (h : t.Linked) (id : NodeId) :
    t.Walks (t.body id) (t.descendants id) := by
  rw [h.descendants_eq]
  exact walks_flatMap _ fun child _ => h.walks_singleton child

theorem descendants_rec (h : t.Linked) (id : NodeId) :
    t.descendants id = (t.body id).flatMap fun child => child :: t.descendants child := by
  rw [h.descendants_eq]
  exact List.flatMap_congr fun child _ => h.preorder_eq_descendants child

/-- Only one listing satisfies the equation of the recursion. -/
theorem eq_descendants (h : t.Linked) {f : NodeId → List NodeId}
    (eq : ∀ id, f id = (t.body id).flatMap fun child => child :: f child) (id : NodeId) :
    f id = t.descendants id := by
  induction id using h.descent.induction with
  | _ id ih =>
    rw [eq, h.descendants_rec]
    exact List.flatMap_congr fun child listed => by rw [ih child listed]

theorem standsIn_iff (h : t.Linked) {x id : NodeId} :
    t.StandsIn x id ↔ id ∈ t.lineage x ∧ x ≠ id := by
  constructor
  · rintro ⟨other, path, climbs, around⟩
    exact ⟨climbs.unique (h.climbs_lineage x) ▸ around, other⟩
  · rintro ⟨around, other⟩
    exact ⟨other, t.lineage x, h.climbs_lineage x, around⟩

theorem nodup_descendants (h : t.Linked) (id : NodeId) : (t.descendants id).Nodup := by
  have whole := h.nodup_preorder id
  rw [h.preorder_eq_descendants] at whole
  exact (List.nodup_cons.1 whole).2

/-- What comes later in a listing in which nothing stands around what comes before it is not around
    what is there already. -/
theorem mem_front (h : t.Linked) {listed front back : List NodeId} {x s : NodeId}
    (ordered : listed.Pairwise fun x y => y ∉ t.lineage x) (split : listed = front ++ x :: back)
    (member : s ∈ listed) (inside : t.StandsIn x s) : s ∈ front := by
  obtain ⟨around, other⟩ := h.standsIn_iff.1 inside
  rw [split] at ordered member
  rcases List.mem_append.1 member with before | after
  · exact before
  · rcases List.mem_cons.1 after with same | later
    · exact absurd same.symm other
    · have tail := (List.pairwise_append.1 ordered).2.1
      exact absurd around ((List.pairwise_cons.1 tail).1 s later)

/-- The scope around a visited node has been visited before it, or is where the walk began. -/
theorem exists_parent_before (h : t.Linked) {id x : NodeId} {front back : List NodeId}
    (split : t.descendants id = front ++ x :: back) :
    ∃ scope ∈ id :: front, t.parent x = some scope := by
  have ordered := h.pairwise_preorder id
  rw [h.preorder_eq_descendants] at ordered
  have listed : x ∈ t.descendants id := by simp [split]
  obtain ⟨around, other⟩ := h.mem_descendants.1 listed
  rw [h.lineage_eq] at around
  cases link : t.parent x with
  | none =>
    rw [link, List.mem_singleton] at around
    exact absurd around.symm other
  | some scope =>
    rw [link] at around
    have above : id ∈ t.lineage scope := (List.mem_cons.1 around).resolve_left (Ne.symm other)
    have member : scope ∈ id :: t.descendants id := by
      rw [← h.preorder_eq_descendants]
      exact h.mem_preorder.2 above
    have inside : t.StandsIn x scope := by
      refine h.standsIn_iff.2 ⟨h.mem_lineage_of_parent link (h.mem_lineage_self scope), ?_⟩
      rintro rfl
      exact h.not_mem_lineage_of_parent link (h.mem_lineage_self x)
    have whole : id :: t.descendants id = (id :: front) ++ x :: back := congrArg (id :: ·) split
    exact ⟨scope, h.mem_front ordered whole member inside, rfl⟩

end Linked

end Tree

/-- Where the links agree, as they do in every tree that callers can build, the walk with a stack comes
    to an end from every node, and what it visits is the listing by recursion: each statement of the
    body with what stands inside it. It visits just what stands inside the node, once each, and every
    node after the scope right around it. The scopes are the root, if it is one, and the scopes inside
    it, once each, and those around a scope come before it. -/
theorem stack_walk_is_recursive_preorder {t : Tree} (h : t.Linked) :
    (∀ id listed, t.Walks (t.body id) listed ↔ listed = t.descendants id) ∧
    (∀ f : NodeId → List NodeId,
      (∀ id, f id = (t.body id).flatMap fun child => child :: f child) ↔ f = t.descendants) ∧
    (∀ id x, x ∈ t.descendants id ↔ t.StandsIn x id) ∧
    (∀ id, (t.descendants id).Nodup) ∧
    (∀ id front x back, t.descendants id = front ++ x :: back →
      ∃ scope ∈ id :: front, t.parent x = some scope) ∧
    (∀ x, x ∈ t.scopes ↔
      (t.node x).isScope = true ∧ (x = Tree.root ∨ t.StandsIn x Tree.root)) ∧
    t.scopes.Nodup ∧
    ∀ front x back, t.scopes = front ++ x :: back →
      ∀ s ∈ t.scopes, t.StandsIn x s → s ∈ front := by
  refine ⟨fun id listed => ⟨fun walk => walk.unique (h.walks_descendants id), ?_⟩,
    fun f => ⟨fun eq => funext (h.eq_descendants eq), ?_⟩,
    fun id x => h.mem_descendants.trans h.standsIn_iff.symm, h.nodup_descendants,
    fun id front x back split => h.exists_parent_before split, fun x => ?_, ?_,
    fun front x back split s member inside => h.mem_front h.pairwise_scopes split member inside⟩
  · rintro rfl
    exact h.walks_descendants id
  · rintro rfl id
    exact h.descendants_rec id
  · rw [h.mem_scopes, h.standsIn_iff, and_comm]
    refine and_congr_right fun _ => ⟨fun attached => ?_, ?_⟩
    · by_cases top : x = Tree.root
      · exact .inl top
      · exact .inr ⟨attached, top⟩
    · rintro (rfl | ⟨attached, -⟩)
      · exact h.mem_lineage_self _
      · exact attached
  · rw [h.scopes_eq]
    exact (h.nodup_preorder _).filter _

/-- A class stands inside a constant that was a module, and another class stands nowhere. -/
def classInConstant : Tree :=
  let t := (Edit.push 0 (.moduleDef "A")).apply .empty
  let t := (Edit.push 1 (.classDef "B" none)).apply t
  let t := (Edit.push 2 { decl := .const { name := "C" } }).apply t
  let t := (Edit.push 1 { decl := .const { name := "D" } }).apply t
  let t := (Edit.alloc (.classDef "E" none)).apply t
  (Edit.setNode 1 { decl := .const { name := "A" } }).apply t

theorem stack_walk_is_recursive_preorder_classInConstant :
    Built classInConstant ∧ classInConstant.Walks [2, 4] [2, 3, 4] ∧
      classInConstant.descendants 1 = [2, 3, 4] ∧ classInConstant.StandsIn 3 1 ∧
      classInConstant.scopes = [0, 2] ∧ ∃ scope ∈ [1, 2], classInConstant.parent 3 = some scope := by
  have built : Built classInConstant :=
    ((((((Built.empty.edit (.push 0 (.moduleDef "A")) (by decide)).edit
      (.push 1 (.classDef "B" none)) (by decide)).edit
      (.push 2 { decl := .const { name := "C" } }) (by decide)).edit
      (.push 1 { decl := .const { name := "D" } }) (by decide)).edit
      (.alloc (.classDef "E" none)) (by decide)).edit
      (.setNode 1 { decl := .const { name := "A" } }) (by decide))
  have listed : classInConstant.descendants 1 = [2, 3, 4] := by decide
  obtain ⟨walks, -, members, -, parents, -⟩ := stack_walk_is_recursive_preorder built.linked
  refine ⟨built, (walks 1 _).2 listed.symm, listed, (members 1 3).1 ?_, by decide,
    parents 1 [2] 3 [4] listed⟩
  rw [listed]
  decide

end InterfaceFile
