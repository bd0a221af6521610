import InterfaceFile.Tree.Category
import InterfaceFile.Tree.Link

/-!
# Sorted bodies

Sorting puts the statements of every scope into a fixed order and drops the empty lines. A
visibility marker stays where it is and cuts its body into sections, each of which is sorted on its
own.
-/

namespace InterfaceFile

/-- Is the node a visibility marker, with or without arguments? -/
def Node.isMarker (n : Node) : Bool :=
  n.category = .visibility

namespace Tree

/-- The statements of one section in order. Statements with equal keys keep their order. -/
def sortSection (t : Tree) (ids : List NodeId) : List NodeId :=
  ids.mergeSort fun a b => (SortKey.ofNode (t.node a)).le (.ofNode (t.node b))

/-- The statements of a body in order. `gathered` is the part of the first section that has been
    seen, latest first. -/
def sortFrom (t : Tree) (gathered : List NodeId) : List NodeId → List NodeId
  | [] => t.sortSection gathered.reverse
  | id :: rest =>
    if (t.node id).isBlank then t.sortFrom gathered rest
    else if (t.node id).isMarker then t.sortSection gathered.reverse ++ id :: t.sortFrom [] rest
    else t.sortFrom (id :: gathered) rest

/-- The body of a scope in order. -/
def sortedBody (t : Tree) (scope : NodeId) : List NodeId :=
  t.sortFrom [] (t.body scope)

/-- Sorts the body of one scope. -/
def sortScope (t : Tree) (scope : NodeId) : Except Fault Tree :=
  let sorted := t.sortedBody scope
  if sorted = t.body scope then .ok t else t.replaceBody scope sorted

/-- Sorts the body of every scope. -/
def sort (t : Tree) : Except Fault Tree :=
  t.scopes.foldlM sortScope t

end Tree

end InterfaceFile
