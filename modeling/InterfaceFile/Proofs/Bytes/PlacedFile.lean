import InterfaceFile.Proofs.Bytes.ScriptedFile
import InterfaceFile.Tree.Link

/-!
# Reading in place

A file can be read into a tree that grows. Every statement is pushed into the innermost open scope as soon as
its line has been read, a scope before its body, and a scope is patched at its `end`. Each push is checked, as
any change of links is, and a refused one ends the reading with a structural error.
-/

namespace InterfaceFile

open Reader (Turn Moves Forward)

/-- A statement that the tree does not take, and where it begins. -/
structure Refusal where
  fault : Fault
  span : Span
  deriving DecidableEq, Repr

/-- A scope of the tree whose `end` has not been read. -/
structure PlacedScope where
  id : NodeId
  construct : Construct
  start : Position
  header : Span

/-- A file that is being read into a tree. -/
structure PlacedFile where
  tree : Tree
  /-- The comments that wait for a declaration, latest first. -/
  remarks : List Remark := []
  /-- The signatures that wait for a declaration, latest first. -/
  sigs : List (Sig × Span) := []
  /-- The open scopes, innermost first. -/
  scopes : List PlacedScope := []

namespace PlacedFile

/-- The scope that statements are pushed into. -/
def scope (p : PlacedFile) : NodeId :=
  match p.scopes with
  | [] => Tree.root
  | s :: _ => s.id

/-- Pushes a statement that began at `start`. -/
def push (p : PlacedFile) (start : Position) (node : Node) : Except Refusal (Tree × NodeId) :=
  match p.tree.push p.scope node with
  | (tree, .ok id) => .ok (tree, id)
  | (_, .error fault) => .error ⟨fault, .point start.offset⟩

/-- What a step comes to: the file after it, or the end of reading. -/
abbrev Step : Type :=
  Turn PlacedFile (Except Refusal Tree)

/-- Adds a statement without a body. No comments wait after it if it has taken them. -/
def add (p : PlacedFile) (start : Position) (node : Node) (remarks : List Remark) : Step :=
  match p.push start node with
  | .ok (tree, _) => .again { p with tree, remarks }
  | .error refusal => .done (.error refusal)

end PlacedFile

namespace Reader

open PlacedFile (Step)

end Reader

/-! ## How it is put together -/

namespace Script

end Script

namespace Reader

end Reader

end InterfaceFile
