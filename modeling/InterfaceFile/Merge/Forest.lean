import InterfaceFile.Merge.Key
import InterfaceFile.Merge.Unify
import InterfaceFile.Tree.Outline

/-!
# Merging statements

The merged declarations are a forest of entries, numbered in the order in which they were added. An
entry whose declarations all had to go stays in place as a mark, so that later declarations with its
key go the same way.
-/

namespace InterfaceFile

/-- A merged declaration. -/
inductive Entry where
  /-- `dropped` says that nothing with this key stays. -/
  | mk (id : NodeId) (node : Node) (dropped : Bool) (body : List Entry)
  deriving Repr

namespace Entry

def id : Entry → NodeId
  | mk id _ _ _ => id

def node : Entry → Node
  | mk _ node _ _ => node

def dropped : Entry → Bool
  | mk _ _ dropped _ => dropped

def body : Entry → List Entry
  | mk _ _ _ body => body

/-- Puts `e` in the place of the entry with its number. -/
def replaceIn (e : Entry) (entries : List Entry) : List Entry :=
  entries.map fun d => if d.id = e.id then e else d

/-- The numbers of the entries that stay. -/
def kept (entries : List Entry) : List NodeId :=
  (entries.filter fun e => !e.dropped).map id

mutual

/-- The slots of an entry and of all entries inside it, with their numbers. -/
def slots (parent : NodeId) : Entry → List (NodeId × Slot)
  | mk id node dropped body =>
    (id, { node, parent := if dropped then none else some parent, body := kept body }) ::
      slotsAll id body

/-- The slots of entries and of all entries inside them. -/
def slotsAll (parent : NodeId) : List Entry → List (NodeId × Slot)
  | [] => []
  | e :: rest => e.slots parent ++ slotsAll parent rest

end

end Entry

/-- A merge in progress, seen from one scope. -/
structure Merging where
  /-- The declarations of the scope, in the order in which they came. -/
  entries : List Entry := []
  /-- The number of the next entry. -/
  next : NodeId := 1
  /-- The conflicts found so far. -/
  conflicts : List Conflict := []

namespace Merging

/-- The entry with a key. -/
def find? (m : Merging) (key : Key) : Option Entry :=
  m.entries.find? fun e => e.node.key? = some key

/-- Adds a declaration with a new key. `inside` merges the statements inside it. -/
def add (m : Merging) (node : Node) (inside : Merging → Merging) : Merging :=
  let inner := inside { next := m.next + 1, conflicts := m.conflicts }
  { inner with entries := m.entries ++ [.mk m.next node false inner.entries] }

/-- Puts a declaration that stays in the place of the entry `e`. `inside` merges more statements
    into it. -/
def update (m : Merging) (e : Entry) (node : Node) (inside : Merging → Merging) : Merging :=
  let inner := inside { entries := e.body, next := m.next, conflicts := m.conflicts }
  { inner with entries := (Entry.mk e.id node false inner.entries).replaceIn m.entries }

/-- Marks an entry as dropped. What it held is kept with it. -/
def drop (m : Merging) (e : Entry) : Merging :=
  { m with entries := (Entry.mk e.id e.node true e.body).replaceIn m.entries }

/-- Records what a union disagrees on, if anything. -/
def report (m : Merging) (enclosing : String) (old new : Node) (union : Union) : Merging :=
  let conflict := union.conflict.map fun kind =>
    { kind, name := old.qualifiedIn enclosing, left := old.loc, right := new.loc }
  { m with conflicts := m.conflicts ++ conflict.toList }

/-- Merges a declaration into the scope named `enclosing`. `inside` merges the statements inside it
    into the scope with the name that it is given. -/
def meet (m : Merging) (keep : Keep) (enclosing : String) (node : Node)
    (inside : String → Merging → Merging) : Merging :=
  match node.key? with
  | none => m
  | some key => match m.find? key with
    | none => m.add node (if node.isScope then inside (node.qualifiedIn enclosing) else id)
    | some e =>
      if e.dropped then m
      else
        let union := e.node.unify keep node
        let m := m.report enclosing e.node node union
        match union.node with
        | none => m.drop e
        | some merged =>
          m.update e merged (if union.descend then inside (merged.qualifiedIn enclosing) else id)

end Merging

mutual

/-- Merges one statement into the scope named `enclosing`; `level` is the visibility of its
    section. -/
def mergeStatement (keep : Keep) (enclosing : String) (level : Visibility) :
    Outline → Merging → Merging
  | .mk node body, m =>
    m.meet keep enclosing (node.inSection level) fun name => mergeBody keep name .pub body

/-- Merges the statements of a body into the scope named `enclosing`. A bare visibility marker
    begins a section and is not merged itself. -/
def mergeBody (keep : Keep) (enclosing : String) (level : Visibility) :
    List Outline → Merging → Merging
  | [], m => m
  | statement :: rest, m => match statement.node.sectionMarker? with
    | some level => mergeBody keep enclosing level rest m
    | none =>
      mergeBody keep enclosing level rest (mergeStatement keep enclosing level statement m)

end

namespace Tree

/-- The tree that holds merged declarations, with all entries at their numbers. -/
def ofEntries (strictness : Option String) (m : Merging) : Tree :=
  let root : Slot := { node := .root, body := Entry.kept m.entries }
  let place (slots : Array Slot) (numbered : NodeId × Slot) :=
    slots.setIfInBounds numbered.1 numbered.2
  { slots := ((Tree.root, root) :: Entry.slotsAll Tree.root m.entries).foldl place
      (Array.replicate m.next default)
    strictness }

/-- Merges trees in order. The result has the first strictness that is not empty. -/
def merge (keep : Keep) (trees : List Tree) : Tree × List Conflict :=
  let merged := trees.foldl
    (fun m t => mergeBody keep "" .pub (t.outline root).body m) {}
  let strictness := (trees.filterMap Tree.strictness).find? fun level => level ≠ ""
  (ofEntries strictness merged, merged.conflicts)

end Tree

end InterfaceFile
