import InterfaceFile.Tree.Basic

/-!
# Walks and names

The way up from a node gives its qualified name; the way down lists what stands inside it. In a
tree whose links agree no walk meets a slot twice, so the number of slots bounds every walk.
-/

namespace InterfaceFile.Tree

/-- The node and the scopes around it, innermost first, at most `n` of them. -/
def lineageUpTo (t : Tree) : Nat → NodeId → List NodeId
  | 0, id => [id]
  | n + 1, id => id :: match t.parent id with
    | some p => t.lineageUpTo n p
    | none => []

/-- The node and all scopes around it, innermost first. -/
def lineage (t : Tree) (id : NodeId) : List NodeId :=
  t.lineageUpTo t.size id

/-- The qualified name of the scope around a node; empty for the root and for unattached nodes. -/
def enclosingName (t : Tree) (id : NodeId) : String :=
  (t.lineage id).tail.foldr (fun i enclosing => (t.node i).qualifiedIn enclosing) ""

/-- The qualified name of a node: the names of the scopes around it and its own. -/
def qualifiedName (t : Tree) (id : NodeId) : String :=
  (t.node id).qualifiedIn (t.enclosingName id)

/-- One qualified name for each name that a node declares. -/
def declaredNames (t : Tree) (id : NodeId) : List String :=
  (t.node id).declaredIn (t.enclosingName id)

/-- Visits the nodes on the stack, each before what stands inside it, at most `n` of them. -/
def visit (t : Tree) : Nat → List NodeId → List NodeId
  | 0, _ => []
  | _ + 1, [] => []
  | n + 1, id :: stack => id :: t.visit n (t.body id ++ stack)

/-- The nodes that stand inside a node, each scope before its body. -/
def descendants (t : Tree) (id : NodeId) : List NodeId :=
  t.visit t.size (t.body id)

/-- The scopes from the root down, each before the scopes inside it. -/
def scopes (t : Tree) : List NodeId :=
  (root :: t.descendants root).filter fun id => (t.node id).isScope

end InterfaceFile.Tree
