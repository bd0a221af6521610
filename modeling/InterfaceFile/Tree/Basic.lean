import InterfaceFile.Node.Basic

/-!
# Trees of declarations

A tree keeps its nodes in numbered slots. Each slot holds a node, the slot of the enclosing scope
and the slots of the body. Number 0 is the root. A node without an enclosing scope is unattached:
it keeps its number and its body, and stands nowhere in the file.

Reading a slot that does not exist gives an unattached empty line.
-/

namespace InterfaceFile

/-- The number of a slot. -/
abbrev NodeId := Nat

/-- A node with its links. -/
structure Slot where
  node : Node
  /-- The scope whose body lists this node. -/
  parent : Option NodeId := none
  /-- The statements inside, in order. -/
  body : List NodeId := []
  deriving DecidableEq, Repr, Inhabited

/-- A tree of declarations. -/
structure Tree where
  slots : Array Slot
  /-- The level of the `# typed:` line. -/
  strictness : Option String := none
  deriving DecidableEq, Repr

namespace Tree

/-- The tree with nothing in it. -/
def empty : Tree :=
  { slots := #[{ node := .root }] }

instance : Inhabited Tree := ⟨empty⟩

/-- The number of the root. -/
abbrev root : NodeId := 0

/-- The number of nodes, attached or not. -/
def size (t : Tree) : Nat :=
  t.slots.size

/-- The slot with a number. -/
def slot (t : Tree) (id : NodeId) : Slot :=
  t.slots[id]?.getD default

/-- The node with a number. -/
def node (t : Tree) (id : NodeId) : Node :=
  (t.slot id).node

/-- The scope that encloses a node, if the node is attached. -/
def parent (t : Tree) (id : NodeId) : Option NodeId :=
  (t.slot id).parent

/-- The statements in the body of a node. -/
def body (t : Tree) (id : NodeId) : List NodeId :=
  (t.slot id).body

/-- Changes one slot. -/
def modifySlot (t : Tree) (id : NodeId) (f : Slot → Slot) : Tree :=
  { t with slots := t.slots.modify id f }

/-- Replaces a node and keeps its links. -/
def setNode (t : Tree) (id : NodeId) (node : Node) : Tree :=
  t.modifySlot id fun s => { s with node }

/-- Replaces the link to the enclosing scope. -/
def setParent (t : Tree) (id : NodeId) (parent : Option NodeId) : Tree :=
  t.modifySlot id fun s => { s with parent }

/-- Replaces the links to the statements inside. -/
def setBody (t : Tree) (id : NodeId) (body : List NodeId) : Tree :=
  t.modifySlot id fun s => { s with body }

/-- Adds an unattached node, which gets the next number. -/
def alloc (t : Tree) (node : Node) : Tree × NodeId :=
  ({ t with slots := t.slots.push { node } }, t.size)

@[simp]
theorem size_modifySlot (t : Tree) (id : NodeId) (f : Slot → Slot) :
    (t.modifySlot id f).size = t.size := by
  simp [modifySlot, size]

/-- A change shows in the changed slot and nowhere else. -/
theorem slot_modifySlot {t : Tree} {id : NodeId} (h : id < t.size) (f : Slot → Slot) (i : NodeId) :
    (t.modifySlot id f).slot i = if i = id then f (t.slot id) else t.slot i := by
  have bound : id < t.slots.size := h
  by_cases hi : i = id
  · subst hi
    simp [slot, modifySlot, Array.getElem_modify, bound]
  · have swapped : ¬ id = i := fun e => hi e.symm
    simp [slot, modifySlot, Array.getElem?_modify, hi, swapped]

@[simp]
theorem size_alloc (t : Tree) (node : Node) : (t.alloc node).1.size = t.size + 1 := by
  simp [alloc, size]

/-- A new node is unattached, and every other slot stays as it is. -/
theorem slot_alloc (t : Tree) (node : Node) (i : NodeId) :
    (t.alloc node).1.slot i = if i = t.size then { node } else t.slot i := by
  by_cases hi : i = t.size
  · subst hi
    simp [slot, alloc, size]
  · have other : ¬ i = t.slots.size := hi
    simp [slot, alloc, Array.getElem?_push, hi, other]

end Tree

end InterfaceFile
