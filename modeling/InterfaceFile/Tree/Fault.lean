import InterfaceFile.Tree.Basic

/-!
# Refused changes of links

The ways in which a change of links would break a tree, with their wording and their codes.
-/

namespace InterfaceFile

/-- Why a change of links is refused. -/
inductive Fault where
  /-- A node names an enclosing scope that does not list it. -/
  | notInParentBody (child parent : NodeId)
  /-- Only scopes have a body. -/
  | notAScope (id : NodeId)
  /-- The root stands inside nothing. -/
  | rootAttach
  /-- The node would stand inside itself. -/
  | cycle (child parent : NodeId)
  /-- A new body names a node twice, or a node that stands elsewhere. -/
  | foreignChild (child scope : NodeId)
  deriving DecidableEq, Repr

namespace Fault

/-- The written form of a number. -/
def showId (id : NodeId) : String :=
  "#" ++ toString id

/-- The reason in words. -/
def message : Fault → String
  | notInParentBody child parent =>
    "node " ++ showId child ++ " claims parent " ++ showId parent ++ " but is not in its body"
  | notAScope id => "node " ++ showId id ++ " is not a scope and cannot own a body"
  | rootAttach => "the root node cannot be attached to a scope"
  | cycle child parent =>
    "attaching " ++ showId child ++ " under " ++ showId parent ++ " would create a cycle"
  | foreignChild child scope =>
    "node " ++ showId child ++ " cannot appear in the new body of " ++ showId scope

/-- The code under which the fault is reported. -/
def code : Fault → String
  | notInParentBody _ _ => "rbi::tree::orphan"
  | notAScope _ => "rbi::tree::not_a_scope"
  | rootAttach => "rbi::tree::root_attach"
  | cycle _ _ => "rbi::tree::cycle"
  | foreignChild _ _ => "rbi::tree::foreign_child"

end Fault

end InterfaceFile
