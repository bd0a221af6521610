import InterfaceFile.Tree.Category
import InterfaceFile.Tree.Link

/-!
# Spacing of bodies

Spacing gives every scope its canonical empty lines: one between neighbours that differ in family,
carry signatures or take more than one line, and none elsewhere. Empty lines that a body has
already are used before new ones are made.
-/

namespace InterfaceFile

/-- The statements with a line from `blanks` in every gap, as long as there are any left. -/
def fillGaps {α : Type} (gap : α → α → Bool) : List α → List α → List α
  | a :: b :: rest, blanks =>
    if gap a b then match blanks with
      | blank :: blanks => a :: blank :: fillGaps gap (b :: rest) blanks
      | [] => a :: fillGaps gap (b :: rest) []
    else a :: fillGaps gap (b :: rest) blanks
  | statements, _ => statements

/-- The number of gaps between neighbours. -/
def countGaps {α : Type} (gap : α → α → Bool) : List α → Nat
  | a :: b :: rest => (if gap a b then 1 else 0) + countGaps gap (b :: rest)
  | _ => 0

namespace Tree

/-- Does a statement take one line? Its signatures are not looked at. -/
def isOneLiner (t : Tree) (id : NodeId) : Bool :=
  let node := t.node id
  node.comments.isEmpty && match node.decl with
    | .scope _ => (t.body id).isEmpty
    | .method m => m.params.all fun p => p.comments.isEmpty
    | _ => true

/-- Does an empty line belong between two neighbours? `top` says whether they stand at the top of
    the file. -/
def needsGap (t : Tree) (top : Bool) (a b : NodeId) : Bool :=
  !(t.node a).sigs.isEmpty || !(t.node b).sigs.isEmpty ||
    (top && (t.node a).isScope && (t.node b).isScope) ||
    (t.node a).category ≠ (t.node b).category || !t.isOneLiner a || !t.isOneLiner b

/-- Adds `n` unattached empty lines. -/
def allocBlanks (t : Tree) (n : Nat) : Tree × List NodeId :=
  ({ t with slots := t.slots ++ Array.replicate n { node := .blank } }, List.range' t.size n)

/-- Spaces the body of one scope. -/
def spaceScope (t : Tree) (scope : NodeId) : Except Fault Tree :=
  let (blanks, statements) := (t.body scope).partition fun id => (t.node id).isBlank
  let gap := t.needsGap (scope = root)
  let (t', fresh) := t.allocBlanks (countGaps gap statements - blanks.length)
  let spaced := fillGaps gap statements (blanks ++ fresh)
  if spaced = t.body scope then .ok t' else t'.replaceBody scope spaced

/-- Spaces the body of every scope. -/
def space (t : Tree) : Except Fault Tree :=
  t.scopes.foldlM spaceScope t

end Tree

end InterfaceFile
