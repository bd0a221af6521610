import InterfaceFile.Tree.Fault
import InterfaceFile.Tree.Walk

/-!
# Changes of links

Every operation that moves a node checks first that the tree stays a tree, and leaves it unchanged
if it would not.
-/

namespace InterfaceFile.Tree

/-- Can `child` be put into the body of `parent`? -/
def checkAttachable (t : Tree) (child parent : NodeId) : Except Fault Unit :=
  if child = root then .error .rootAttach
  else if !(t.node parent).isScope then .error (.notAScope parent)
  else if child ∈ t.lineage parent then .error (.cycle child parent)
  else .ok ()

/-- Takes a node out of the body that lists it. A node that stands nowhere stays as it is. -/
def detach (t : Tree) (child : NodeId) : Except Fault Tree :=
  match t.parent child with
  | none => .ok t
  | some p =>
    if child ∈ t.body p then
      .ok ((t.setBody p ((t.body p).erase child)).setParent child none)
    else .error (.notInParentBody child p)

/-- Moves a node into the body of `parent`, before the statement at `index` of what that body holds
    once the node has left its old place. A larger index means the end. -/
def insert (t : Tree) (child parent : NodeId) (index : Nat) : Except Fault Tree := do
  t.checkAttachable child parent
  let t ← t.detach child
  let body := t.body parent
  return (t.setBody parent (body.insertIdx (min index body.length) child)).setParent child parent

/-- Moves a node to the end of the body of `parent`. -/
def attach (t : Tree) (child parent : NodeId) : Except Fault Tree :=
  t.insert child parent (t.body parent).length

/-- Adds a node at the end of the body of `parent`. If that is refused, the tree still holds the
    node, unattached. -/
def push (t : Tree) (parent : NodeId) (node : Node) : Tree × Except Fault NodeId :=
  let (t, id) := t.alloc node
  match t.attach id parent with
  | .ok t => (t, .ok id)
  | .error fault => (t, .error fault)

/-- Can `child` be listed in a new body of `scope`? It has to be listed there already, or to stand
    nowhere and be attachable. -/
def checkMember (t : Tree) (scope child : NodeId) : Except Fault Unit :=
  match t.parent child with
  | none => t.checkAttachable child scope
  | some p =>
    if p ≠ scope then .error (.foreignChild child scope)
    else if child ∈ t.body scope then .ok ()
    else .error (.notInParentBody child scope)

/-- Checks the members of a new body in order; none may be among `seen` or come twice. -/
def checkMembers (t : Tree) (scope : NodeId) (seen : List NodeId) : List NodeId → Except Fault Unit
  | [] => .ok ()
  | child :: rest =>
    if child ∈ seen then .error (.foreignChild child scope)
    else do
      t.checkMember scope child
      t.checkMembers scope (child :: seen) rest

/-- Gives every listed node the same enclosing scope, or none. -/
def setParents (t : Tree) (ids : List NodeId) (parent : Option NodeId) : Tree :=
  ids.foldl (fun t id => t.setParent id parent) t

/-- Gives a scope a new body. Statements that it no longer lists become unattached. -/
def replaceBody (t : Tree) (scope : NodeId) (body : List NodeId) : Except Fault Tree :=
  if !(t.node scope).isScope then .error (.notAScope scope)
  else do
    t.checkMembers scope [] body
    return ((t.setParents (t.body scope) none).setParents body scope).setBody scope body

end InterfaceFile.Tree
