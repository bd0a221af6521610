import InterfaceFile.Proofs.Tree.Grafts
import InterfaceFile.Proofs.Tree.Walks

/-!
# Trees that callers can build

Callers see a tree through its operations only. Whatever they do with them, in any order, with calls
that are refused and with payloads replaced at will, the links of every tree agree.
-/

namespace InterfaceFile

/-- A call that changes one tree. -/
inductive Edit where
  | alloc (node : Node)
  | push (parent : NodeId) (node : Node)
  | attach (child parent : NodeId)
  | insert (child parent : NodeId) (index : Nat)
  | detach (child : NodeId)
  | replaceBody (scope : NodeId) (body : List NodeId)
  | setNode (id : NodeId) (node : Node)
  | setStrictness (level : Option String)

namespace Edit

/-- The numbers that a call names are numbers of slots. -/
def Valid (t : Tree) : Edit → Prop
  | alloc _ => True
  | push parent _ => parent < t.size
  | attach child parent => child < t.size ∧ parent < t.size
  | insert child parent _ => child < t.size ∧ parent < t.size
  | detach child => child < t.size
  | replaceBody scope body => scope < t.size ∧ ∀ id ∈ body, id < t.size
  | setNode id _ => id < t.size
  | setStrictness _ => True

instance (t : Tree) (e : Edit) : Decidable (e.Valid t) :=
  match e with
  | alloc _ | setStrictness _ => inferInstanceAs (Decidable True)
  | push parent _ => inferInstanceAs (Decidable (parent < t.size))
  | attach child parent | insert child parent _ =>
    inferInstanceAs (Decidable (child < t.size ∧ parent < t.size))
  | detach child => inferInstanceAs (Decidable (child < t.size))
  | replaceBody scope body =>
    inferInstanceAs (Decidable (scope < t.size ∧ ∀ id ∈ body, id < t.size))
  | setNode id _ => inferInstanceAs (Decidable (id < t.size))

/-- The tree that a call with the given outcome leaves behind. -/
def settle (t : Tree) : Except Fault Tree → Tree
  | .ok t' => t'
  | .error _ => t

/-- The tree after a call. A refused call leaves the tree as it is, but a refused `push` has added
    its node already. -/
def apply (t : Tree) : Edit → Tree
  | alloc node => (t.alloc node).1
  | push parent node => (t.push parent node).1
  | attach child parent => settle t (t.attach child parent)
  | insert child parent index => settle t (t.insert child parent index)
  | detach child => settle t (t.detach child)
  | replaceBody scope body => settle t (t.replaceBody scope body)
  | setNode id node => t.setNode id node
  | setStrictness level => { t with strictness := level }

end Edit

/-- The trees that callers can build. A copy may come from any of them, from an earlier state of the
    tree itself, too. -/
inductive Built : Tree → Prop
  | empty : Built .empty
  | edit {t : Tree} (h : Built t) (e : Edit) (valid : e.Valid t) : Built (e.apply t)
  | copy {t source : Tree} (h : Built t) (other : Built source) (id : NodeId)
      (valid : id < source.size) : Built (t.copySubtree source id).1

namespace Tree.Linked

variable {t : Tree}

theorem linked_insert {t' : Tree} (h : t.Linked) {child scope : NodeId} {index : Nat}
    (hc : child < t.size) (hs : scope < t.size) (run : t.insert child scope index = .ok t') :
    t'.Linked := by
  rcases h.insert_eq hc hs index with ⟨fault, -, refused⟩ | ⟨check, t'', done, moved⟩
  · rw [refused] at run
    cases run
  · obtain rfl : t'' = t' := Except.ok.inj (done.symm.trans run)
    obtain ⟨notRoot, -, outside⟩ := checkAttachable_eq_ok.1 check
    exact moved.linked h hc notRoot outside

theorem linked_push (h : t.Linked) {scope : NodeId} (hs : scope < t.size) (node : Node) :
    (t.push scope node).1.Linked := by
  have added := h.alloc node
  have fits : t.size < (t.alloc node).1.size := by simp
  have scopeFits : scope < (t.alloc node).1.size := Nat.lt_trans hs fits
  rw [Tree.push]
  show (match (t.alloc node).1.attach t.size scope with
    | .ok t' => (t', Except.ok t.size)
    | .error fault => ((t.alloc node).1, .error fault)).1.Linked
  cases run : (t.alloc node).1.attach t.size scope with
  | ok t' => exact added.linked_insert fits scopeFits run
  | error fault => exact added

theorem linked_replaceBody {t' : Tree} (h : t.Linked) {scope : NodeId} {ids : List NodeId}
    (hs : scope < t.size) (hi : ∀ id ∈ ids, id < t.size)
    (run : t.replaceBody scope ids = .ok t') : t'.Linked := by
  rcases h.replaceBody_eq hs hi with ⟨fault, refused⟩ | ⟨check, t'', done, changed⟩
  · rw [refused] at run
    cases run
  · obtain rfl : t'' = t' := Except.ok.inj (done.symm.trans run)
    exact changed.linked h hi check

theorem linked_settle (h : t.Linked) {outcome : Except Fault Tree}
    (done : ∀ t', outcome = .ok t' → t'.Linked) : (Edit.settle t outcome).Linked := by
  cases outcome with
  | ok t' => exact done t' rfl
  | error fault => exact h

/-- No call breaks the links, whether it is refused or not. -/
theorem apply (h : t.Linked) {e : Edit} (valid : e.Valid t) : (e.apply t).Linked := by
  cases e with
  | alloc node => exact h.alloc node
  | push parent node => exact h.linked_push valid node
  | attach child parent =>
    exact h.linked_settle fun t' run => h.linked_insert valid.1 valid.2 run
  | insert child parent index =>
    exact h.linked_settle fun t' run => h.linked_insert valid.1 valid.2 run
  | detach child => exact h.linked_settle fun t' run => h.linked_detach run
  | replaceBody scope body =>
    exact h.linked_settle fun t' run => h.linked_replaceBody valid.1 valid.2 run
  | setNode id node => exact h.setNode id node
  | setStrictness level => exact h.congr (Nat.le_refl _) (fun _ => rfl) (fun _ => rfl)

end Tree.Linked

theorem Built.linked {t : Tree} (h : Built t) : t.Linked := by
  induction h with
  | empty => exact Tree.linked_empty
  | edit _ e valid ih => exact ih.apply valid
  | copy _ _ id _ ih _ => exact ih.graft _

/-- In every tree that callers can build the links agree, the way up from every node ends at a node
    that stands nowhere, no bound shows in the walk down, and the qualified name is that of the
    recursion over the scopes around a node. -/
theorem built_links_agree_and_walks_end {t : Tree} (h : Built t) :
    t.Linked ∧ (∀ id, t.Climbs id (t.lineage id)) ∧
      (∀ id n, t.size ≤ n → t.visit n (t.body id) = t.descendants id) ∧
      ∀ id, t.qualifiedName id = (t.node id).qualifiedIn (match t.parent id with
        | some scope => t.qualifiedName scope
        | none => "") := by
  have linked := h.linked
  refine ⟨linked, linked.climbs_lineage, fun id n enough => ?_, linked.qualifiedName_eq⟩
  rw [linked.visit_body id enough, linked.descendants_eq]

/-- A class is copied into itself, and the scope around both becomes a constant. -/
def nestedCopy : Tree :=
  let t := (Edit.push 0 (.moduleDef "A")).apply .empty
  let t := (Edit.push 1 (.classDef "B" none)).apply t
  let t := (t.copySubtree t 2).1
  let t := (Edit.attach 3 2).apply t
  let t := (Edit.insert 1 3 0).apply t
  (Edit.setNode 1 { decl := .const { name := "A" } }).apply t

theorem built_links_agree_and_walks_end_nestedCopy :
    Built nestedCopy ∧ nestedCopy.Linked ∧ nestedCopy.Climbs 3 (nestedCopy.lineage 3) ∧
      nestedCopy.lineage 3 = [3, 2, 1, 0] ∧
      nestedCopy.visit 9 (nestedCopy.body 1) = nestedCopy.descendants 1 := by
  have one := Built.empty.edit (.push 0 (.moduleDef "A")) (by decide)
  have two := one.edit (.push 1 (.classDef "B" none)) (by decide)
  have three := two.copy two 2 (by decide)
  have four := three.edit (.attach 3 2) (by decide)
  have five := four.edit (.insert 1 3 0) (by decide)
  have built : Built nestedCopy :=
    five.edit (.setNode 1 { decl := .const { name := "A" } }) (by decide)
  obtain ⟨linked, climbs, visits, -⟩ := built_links_agree_and_walks_end built
  exact ⟨built, linked, climbs 3, by decide, visits 1 9 (by decide)⟩

end InterfaceFile
