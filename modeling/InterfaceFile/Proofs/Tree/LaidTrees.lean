import InterfaceFile.Proofs.RoundTrip.ReadTree
import InterfaceFile.Proofs.Tree.Walks

/-!
# Trees laid out at once

The slots of a tree that is made of nested statements come in reading order, each scope before its
body. So its links agree, and the walk down from the root meets the slots one after the other.
-/

namespace InterfaceFile

variable {t : Tree}

theorem Outline.size_pos (o : Outline) : 0 < o.size := by
  cases o with
  | mk node body =>
    rw [size]
    omega

/-! ## Links -/

namespace Tree

/-- A tree whose slots are those of one statement has links that agree. -/
theorem linked_of_laidOut {o : Outline} (laid : o.LaidOut t.slot root none) (size : t.size = o.size) :
    t.Linked := by
  have block : ∀ i : Nat, i < t.size → Outline.LinksInside t.slot 0 t.size none [0] i := by
    intro i inside
    have links := laid.linksInside i (Nat.zero_le i) (by rwa [root, Nat.zero_add, ← size])
    rwa [root, Nat.zero_add, ← size] at links
  -- Slots that do not exist have no links, so both ends of a link have a slot.
  have up : ∀ {c s : Nat}, t.parent c = some s → s < c ∧ c ∈ t.body s := by
    intro c s link
    have inside : c < t.size := by
      by_contra outside
      rw [parent_of_size_le (Nat.le_of_not_lt outside)] at link
      cases link
    rcases (block c inside).parent with ⟨-, top⟩ | ⟨p, inner, -, before, listed⟩
    · cases link.symm.trans top
    · obtain rfl : p = s := Option.some.inj (inner.symm.trans link)
      exact ⟨before, listed⟩
  have down : ∀ {c s : Nat}, c ∈ t.body s → c < t.size ∧ t.parent c = some s := by
    intro c s listed
    have inside : s < t.size := by
      by_contra outside
      rw [body_of_size_le (Nat.le_of_not_lt outside)] at listed
      cases listed
    exact ((block s inside).body c listed).2
  refine ⟨size ▸ o.size_pos, fun c s => ⟨fun link => (up link).2, fun listed => (down listed).2⟩,
    fun s => ?_, fun s c listed => (down listed).1, ?_, ⟨fun i => ?_⟩⟩
  · by_cases inside : s < t.size
    · exact (block s inside).nodup
    · rw [body_of_size_le (Nat.le_of_not_lt inside)]
      exact List.nodup_nil
  · cases o with
    | mk node body => rw [Tree.parent, laid.1]
  · -- The way up goes to smaller numbers.
    induction i using Nat.strongRecOn with
    | _ i ih => exact Acc.intro i fun p link => ih p (up link).1

theorem linked_ofOutlines (strictness : Option String) (body : List Outline) :
    (ofOutlines strictness body).Linked :=
  linked_of_laidOut (laidOut_ofOutlines strictness body) (size_ofOutlines strictness body)

end Tree

/-! ## The walk down -/

namespace Outline

mutual

/-- The listing of a statement that is laid out is the row of its slots. -/
theorem LaidOut.preorder_eq (linked : t.Linked) {id : Nat} {parent : Option NodeId} :
    ∀ {o : Outline}, o.LaidOut t.slot id parent → t.preorder id = List.range' id o.size
  | mk node body, h => by
    have listed : t.body id = numbers (id + 1) body := by rw [Tree.body, h.1]
    rw [linked.preorder_eq, listed, LaidOutAll.preorder_eq linked h.2, size, List.range'_succ]

theorem LaidOutAll.preorder_eq (linked : t.Linked) {next : Nat} {parent : Option NodeId} :
    ∀ {os : List Outline}, LaidOutAll t.slot next parent os →
      (numbers next os).flatMap t.preorder = List.range' next (sizeAll os)
  | [], _ => rfl
  | o :: rest, h => by
    rw [numbers, List.flatMap_cons, h.1.preorder_eq linked, LaidOutAll.preorder_eq linked h.2, sizeAll,
      List.range'_append_1]

end

end Outline

namespace Tree

end Tree

end InterfaceFile
