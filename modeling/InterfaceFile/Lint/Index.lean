import InterfaceFile.Tree.Walk

/-!
# Index of declarations

All declarations of several trees, by qualified name.
-/

namespace InterfaceFile

/-- A declaration in one of the indexed trees. An attribute with several names has an entry for
    each. -/
structure DeclEntry where
  /-- The place of its tree among the indexed trees. -/
  tree : Nat
  id : NodeId
  node : Node
  /-- The qualified name under which it is entered. -/
  name : String
  deriving DecidableEq, Repr

namespace DeclEntry

/-- The part of a name after its last `#`, if it has one. -/
def member? (name : String) : Option String :=
  let cs := name.toList
  if '#' ∈ cs then some (String.ofList (cs.reverse.takeWhile (· ≠ '#')).reverse) else none

/-- The declaration without comments and locations. An attribute is narrowed to the name under
    which it is entered. -/
def definition (e : DeclEntry) : Node :=
  let node := e.node.stripped
  match node.decl, member? e.name with
  | .attr a, some name => { node with decl := .attr { a with names := a.names.filter (· = name) } }
  | _, _ => node

end DeclEntry

/-- Declarations by name, with the names in order. -/
structure DeclIndex where
  /-- Every attached node below the roots, under its qualified name. -/
  nodes : List DeclEntry := []
  /-- The declarations of each declared name. -/
  groups : List (String × List DeclEntry) := []
  deriving DecidableEq, Repr

namespace DeclIndex

/-- Adds a declaration at the end of the group of its name. -/
def insert (e : DeclEntry) : List (String × List DeclEntry) → List (String × List DeclEntry)
  | [] => [(e.name, [e])]
  | (name, group) :: rest =>
    if e.name < name then (e.name, [e]) :: (name, group) :: rest
    else if e.name = name then (name, group ++ [e]) :: rest
    else (name, group) :: insert e rest

/-- The entries of one tree, one for each node. -/
def treeNodes (position : Nat) (t : Tree) : List DeclEntry :=
  (t.descendants Tree.root).map fun id =>
    { tree := position, id, node := t.node id, name := t.qualifiedName id }

/-- The entries of one tree, one for each name that a node declares. -/
def treeDecls (position : Nat) (t : Tree) : List DeclEntry :=
  ((t.descendants Tree.root).filter fun id => (t.node id).declaresName).flatMap fun id =>
    (t.declaredNames id).map fun name => { tree := position, id, node := t.node id, name }

/-- The index of several trees. -/
def ofTrees (trees : List Tree) : DeclIndex :=
  let numbered := trees.zipIdx
  { nodes := numbered.flatMap fun (t, position) => treeNodes position t
    groups := (numbered.flatMap fun (t, position) => treeDecls position t).foldl
      (fun groups e => insert e groups) [] }

/-- The declarations of a name. -/
def get (ix : DeclIndex) (name : String) : List DeclEntry :=
  match ix.groups.find? fun group => group.1 = name with
  | some (_, entries) => entries
  | none => []

end DeclIndex

end InterfaceFile
