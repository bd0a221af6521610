import InterfaceFile.Proofs.Merge.InPlace
import InterfaceFile.Proofs.Tree.LaidTrees
import InterfaceFile.Reader.File

/-!
# Trees that grow

While a file is being read, what has been read so far makes a tree: the open scopes stand in it with their
headers. The next statement is pushed at the end of the innermost one, and at its `end` a scope gets its
location and its last comments. Each of these changes of the tree gives the tree of the file after it.
-/

namespace InterfaceFile

/-- The statements of a file with open scopes around the innermost ones. `loc` is where the header of an
    open scope stands. -/
def enclosed (loc : OpenScope → Option Location) : List OpenScope → List Outline → List Outline
  | [], inside => inside
  | s :: outer, inside =>
    enclosed loc outer <| s.earlier.reverse ++
      [.mk { decl := .scope s.scope, comments := s.comments, loc := loc s } inside]

/-- The number of the innermost open scope, or of the root. -/
def innermost : List OpenScope → Nat
  | [] => Tree.root
  | s :: outer => innermost outer + 1 + Outline.sizeAll s.earlier.reverse

namespace OpenFile

/-- The tree of what has been read so far. -/
def tree (loc : OpenScope → Option Location) (level : Option String) (f : OpenFile) : Tree :=
  .ofOutlines level (enclosed loc f.scopes f.statements.reverse)

end OpenFile

namespace Outline

theorem numbers_append (next : Nat) (os rest : List Outline) :
    numbers next (os ++ rest) = numbers next os ++ numbers (next + sizeAll os) rest := by
  induction os generalizing next with
  | nil => rfl
  | cons o os ih =>
    rw [List.cons_append, numbers, numbers, sizeAll, ih, List.cons_append, Nat.add_assoc]

theorem slotsAll_append (next : Nat) (parent : Option NodeId) (os rest : List Outline) :
    slotsAll next parent (os ++ rest) =
      slotsAll next parent os ++ slotsAll (next + sizeAll os) parent rest := by
  induction os generalizing next with
  | nil => rfl
  | cons o os ih =>
    rw [List.cons_append, slotsAll, slotsAll, sizeAll, ih, List.append_assoc, Nat.add_assoc]

end Outline

namespace Tree

/-- The tree `t` ends in the scope `node` with the number `k` and its statements `inside`. What stands
    before it are the slots `old`. -/
structure EndsInScope (t : Tree) (k : Nat) (old : NodeId → Slot) (node : Node)
    (parent : Option NodeId) (inside : List Outline) : Prop where
  size : t.size = k + 1 + Outline.sizeAll inside
  before : ∀ i < k, t.slot i = old i
  scope : t.slot k = { node, parent, body := Outline.numbers (k + 1) inside }
  inside : ∀ j, t.slot (k + 1 + j) = ((Outline.slotsAll (k + 1) (some k) inside)[j]?).getD default

/-- A new last statement of that scope takes the first free slot. -/
theorem EndsInScope.push {t t' u : Tree} {k : Nat} {old : NodeId → Slot} {scope node : Node}
    {parent : Option NodeId} {inside : List Outline} (h : t.EndsInScope k old scope parent inside)
    (pushed : t.Pushed t' k node) (h' : u.EndsInScope k old scope parent (inside ++ [.mk node []]))
    {i : Nat} (bound : i < t'.size) : t'.slot i = u.slot i := by
  rw [pushed.size, h.size] at bound
  have eta : t'.slot i = { node := t'.node i, parent := t'.parent i, body := t'.body i } := rfl
  rw [eta, pushed.node, pushed.parent, pushed.body, h.size]
  rcases Nat.lt_trichotomy i k with below | rfl | above
  · have other : i ≠ k + 1 + Outline.sizeAll inside := by omega
    rw [if_neg other, if_neg other, if_neg (Nat.ne_of_lt below), h'.before i below,
      ← h.before i below]
    rfl
  · have other : i ≠ i + 1 + Outline.sizeAll inside := by omega
    rw [if_neg other, if_neg other, if_pos rfl, h'.scope, Tree.node, Tree.parent, Tree.body, h.scope,
      Outline.numbers_append]
    rfl
  · obtain ⟨j, rfl⟩ := Nat.exists_eq_add_of_le (Nat.succ_le_of_lt above)
    have notScope : k + 1 + j ≠ k := by omega
    rw [if_neg notScope, h'.inside j, Outline.slotsAll_append]
    by_cases new : j = Outline.sizeAll inside
    · subst new
      have leaf : t.body (k + 1 + Outline.sizeAll inside) = [] :=
        body_of_size_le (Nat.le_of_eq h.size)
      rw [if_pos rfl, if_pos rfl, leaf, List.getElem?_append_right (by simp), Outline.length_slotsAll,
        Nat.sub_self]
      rfl
    · have other : k + 1 + j ≠ k + 1 + Outline.sizeAll inside := by omega
      rw [if_neg other, if_neg other, List.getElem?_append_left (by simp; omega), ← h.inside j]
      rfl

end Tree

end InterfaceFile
