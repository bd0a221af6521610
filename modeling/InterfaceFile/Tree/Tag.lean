import InterfaceFile.Tree.Walk

/-!
# Tags

A tag is a comment `@tag` on a statement. Tagging marks the statements at the top of a file and, if
asked, declarations further inside.
-/

namespace InterfaceFile

/-- Which statements get a tag besides those at the top of the file. -/
structure TagOptions where
  /-- Modules and classes at any depth. -/
  scopes : Bool := false
  /-- Constants, methods, attributes, type members and struct fields at any depth. -/
  properties : Bool := false
  deriving DecidableEq, Repr, Inhabited

namespace Node

/-- Does a node get a tag? `top` says whether it stands at the top of the file. -/
def isTagged (n : Node) (top : Bool) (o : TagOptions) : Bool :=
  match n.decl with
  | .blank => false
  | .scope _ => top || o.scopes
  | .const _ | .method _ | .attr _ => top || o.properties
  | .call c => top || (o.properties && c.isProperty)

/-- Adds a comment at the end, unless the node has one with that text. -/
def addComment (n : Node) (text : String) : Node :=
  if n.comments.any fun c => c.text = text then n
  else { n with comments := n.comments ++ [{ text }] }

end Node

namespace Tree

/-- Tags one statement if it is to be tagged. -/
def tagNode (tag : String) (o : TagOptions) (t : Tree) (id : NodeId) : Tree :=
  let node := t.node id
  if node.isTagged (t.parent id = some root) o then t.setNode id (node.addComment ("@" ++ tag))
  else t

/-- Tags the statements of a tree. -/
def tag (t : Tree) (tag : String) (o : TagOptions) : Tree :=
  (t.descendants root).foldl (tagNode tag o) t

end Tree

end InterfaceFile
