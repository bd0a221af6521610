import InterfaceFile.Tree.Basic

/-!
# Nested statements

An `Outline` is a statement with the statements inside it: what a tree says, without numbers. A tree
is read into an outline from any node, and an outline is added to a tree as a block of new slots.
-/

namespace InterfaceFile

/-- A statement with the statements inside it. -/
inductive Outline where
  | mk (node : Node) (body : List Outline)
  deriving Repr

namespace Outline

/-- The statement itself. -/
def node : Outline → Node
  | mk node _ => node

/-- The statements inside. -/
def body : Outline → List Outline
  | mk _ body => body

mutual

/-- The number of statements, the outer one included. -/
def size : Outline → Nat
  | mk _ body => sizeAll body + 1

/-- The number of statements of a list. -/
def sizeAll : List Outline → Nat
  | [] => 0
  | o :: rest => o.size + sizeAll rest

end

/-- The numbers that statements get when they are laid out one after the other from `next` on. -/
def numbers (next : NodeId) : List Outline → List NodeId
  | [] => []
  | o :: rest => next :: numbers (next + o.size) rest

mutual

/-- The slots of a statement that gets the number `id`: its own, then those of its body. -/
def slots (id : NodeId) (parent : Option NodeId) : Outline → List Slot
  | mk node body =>
    { node, parent, body := numbers (id + 1) body } :: slotsAll (id + 1) (some id) body

/-- The slots of a list of statements laid out from `next` on. -/
def slotsAll (next : NodeId) (parent : Option NodeId) : List Outline → List Slot
  | [] => []
  | o :: rest => o.slots next parent ++ slotsAll (next + o.size) parent rest

end

end Outline

namespace Tree

/-- What a node says down to `n` levels inside it. -/
def outlineUpTo (t : Tree) : Nat → NodeId → Outline
  | 0, id => .mk (t.node id) []
  | n + 1, id => .mk (t.node id) ((t.body id).map (t.outlineUpTo n))

/-- What a node says, with all that stands inside it. -/
def outline (t : Tree) (id : NodeId) : Outline :=
  t.outlineUpTo t.size id

/-- Adds a statement with all that stands inside it. The statement is unattached and gets the next
    number; the ones inside it follow. -/
def graft (t : Tree) (o : Outline) : Tree × NodeId :=
  ({ t with slots := t.slots ++ o.slots t.size none }, t.size)

/-- The tree that holds the given statements. -/
def ofOutlines (strictness : Option String) (body : List Outline) : Tree :=
  { slots := (Outline.mk .root body).slots root none |>.toArray, strictness }

/-- Copies a node with all that stands inside it from `source` into the tree, unattached. -/
def copySubtree (t : Tree) (source : Tree) (id : NodeId) : Tree × NodeId :=
  t.graft (source.outline id)

end Tree

end InterfaceFile
