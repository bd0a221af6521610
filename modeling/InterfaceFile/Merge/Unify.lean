import InterfaceFile.Merge.Conflict
import InterfaceFile.Node.Basic

/-!
# Two declarations of one thing

When a declaration meets an earlier one with the same key, the two are made one, or they disagree
and the policy decides.
-/

namespace InterfaceFile

/-- What becomes of an earlier declaration when a later one with the same key comes. -/
structure Union where
  /-- What the two disagree on. -/
  conflict : Option ConflictKind := none
  /-- What stays; nothing if both go. -/
  node : Option Node
  /-- Are the statements inside the later one merged, too? -/
  descend : Bool := false
  deriving DecidableEq, Repr

/-- The comments with those of `more` after them whose text is not there yet. -/
def uniteComments (comments more : List Comment) : List Comment :=
  more.foldl (fun acc c => if acc.any fun d => d.text = c.text then acc else acc ++ [c]) comments

namespace Node

/-- The earlier node, with the declaration `decl` and the comments of both. -/
def unite (old new : Node) (decl : Declaration) : Node :=
  { old with decl, comments := uniteComments old.comments new.comments }

/-- Makes one scope of two. A class without a superclass takes that of the other. -/
def unifyScopes (keep : Keep) (old new : Node) (left right : Scope) : Union :=
  if !left.kind.sameFlavour right.kind then
    match keep with
    | .left => { conflict := some .scopeKind, node := old }
    | .right =>
      { conflict := some .scopeKind, node := old.unite new new.decl, descend := true }
    | .neither => { conflict := some .scopeKind, node := none }
  else match left.kind, right.kind with
    | .classDef none, .classDef (some _) => { node := old.unite new new.decl, descend := true }
    | .classDef (some a), .classDef (some b) =>
      if a = b then { node := old.unite new old.decl, descend := true }
      else match keep with
        | .left =>
          { conflict := some .superclass, node := old.unite new old.decl, descend := true }
        | .right =>
          { conflict := some .superclass, node := old.unite new new.decl, descend := true }
        | .neither => { conflict := some .superclass, node := none }
    | _, _ => { node := old.unite new old.decl, descend := true }

/-- What two different declarations disagree on, by the kind of the later one. -/
def mismatch (n : Node) : ConflictKind :=
  match n.decl with
  | .const _ => .constValue
  | .attr _ => .attributes
  | .method _ => .signature
  | _ => .property

/-- Makes one declaration of two that have no body. They agree if they are equal without comments
    and locations. -/
def unifyLeaves (keep : Keep) (old new : Node) : Union :=
  if old.stripped = new.stripped then { node := old.unite new old.decl }
  else
    { conflict := some new.mismatch
      node := match keep with
        | .left => some old
        | .right => some new
        | .neither => none }

/-- Makes one declaration of two with the same key. -/
def unify (keep : Keep) (old new : Node) : Union :=
  match old.decl, new.decl with
  | .scope left, .scope right => unifyScopes keep old new left right
  | _, _ => unifyLeaves keep old new

end Node

end InterfaceFile
