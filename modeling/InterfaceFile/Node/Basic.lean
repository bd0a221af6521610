import InterfaceFile.Node.Call

/-!
# Nodes

A node is one statement of an interface file: what it declares, its comments and where it was
read. Which statement stands inside which is not part of a node but of the tree that holds it.
-/

namespace InterfaceFile

/-- The kinds of scope. -/
inductive ScopeKind where
  /-- The whole file, which has no header. -/
  | root
  | moduleDef
  | classDef (superclass : Option String)
  /-- `class << self` -/
  | singletonClass
  deriving DecidableEq, Repr, Inhabited

namespace ScopeKind

/-- The kind in words. -/
def describe : ScopeKind → String
  | root => "root"
  | moduleDef => "module"
  | classDef _ => "class"
  | singletonClass => "singleton class"

/-- Are two kinds the same, whatever the superclasses? -/
def sameFlavour : ScopeKind → ScopeKind → Bool
  | root, root => true
  | moduleDef, moduleDef => true
  | classDef _, classDef _ => true
  | singletonClass, singletonClass => true
  | _, _ => false

end ScopeKind

/-- A statement that has a body of statements. -/
structure Scope where
  kind : ScopeKind
  name : String
  deriving DecidableEq, Repr, Inhabited

/-- The name of every singleton class. -/
def singletonName : String :=
  "<self>"

/-- `NAME` or `NAME = value`. -/
structure Constant where
  name : String
  value : Option String := none
  deriving DecidableEq, Repr, Inhabited

/-- What a statement declares. -/
inductive Declaration where
  | scope (s : Scope)
  | const (c : Constant)
  | method (m : Method)
  | attr (a : Attribute)
  | call (c : Call)
  /-- An empty line. -/
  | blank
  deriving DecidableEq, Repr, Inhabited

/-- One statement of an interface file. -/
structure Node where
  decl : Declaration
  comments : List Comment := []
  loc : Option Location := none
  deriving DecidableEq, Repr

namespace Node

/-- The scope of a whole file. -/
def root : Node :=
  { decl := .scope { kind := .root, name := "" } }

/-- A module. -/
def moduleDef (name : String) : Node :=
  { decl := .scope { kind := .moduleDef, name } }

/-- A class. -/
def classDef (name : String) (superclass : Option String) : Node :=
  { decl := .scope { kind := .classDef superclass, name } }

/-- A singleton class. -/
def singletonClass : Node :=
  { decl := .scope { kind := .singletonClass, name := singletonName } }

/-- An empty line. -/
def blank : Node :=
  { decl := .blank }

instance : Inhabited Node := ⟨blank⟩

/-- The scope that a node opens, if it opens one. -/
def scope? (n : Node) : Option Scope :=
  match n.decl with
  | .scope s => some s
  | _ => none

/-- Can the node have a body? -/
def isScope (n : Node) : Bool :=
  n.scope?.isSome

/-- Is the node an empty line? -/
def isBlank (n : Node) : Bool :=
  match n.decl with
  | .blank => true
  | _ => false

/-- The signatures of a method or an attribute; other nodes have none. -/
def sigs (n : Node) : List Sig :=
  match n.decl with
  | .method m => m.sigs
  | .attr a => a.sigs
  | _ => []

/-- The node without any comment or location. Two declarations are the same declaration if their
    stripped forms are equal. -/
def stripped (n : Node) : Node :=
  match n.decl with
  | .method m => { decl := .method m.stripped }
  | .attr a => { decl := .attr a.stripped }
  | decl => { decl }

/-- Changes every location in the node. -/
def mapLoc (f : Location → Location) (n : Node) : Node :=
  { decl := match n.decl with
      | .method m => .method (m.mapLoc f)
      | .attr a => .attr (a.mapLoc f)
      | decl => decl
    comments := n.comments.map (Comment.mapLoc f)
    loc := n.loc.map f }

/-- Are two nodes equal, with comments and locations, when files are compared as paths? -/
def same (a b : Node) : Bool :=
  a.mapLoc Location.normal = b.mapLoc Location.normal

/-- Does the node declare a name of its own? -/
def declaresName (n : Node) : Bool :=
  match n.decl with
  | .scope _ | .const _ | .method _ | .attr _ => true
  | .call c => c.isProperty
  | .blank => false

/-- The bare visibility that a node sets for its later siblings, if it is a marker. -/
def sectionMarker? (n : Node) : Option Visibility :=
  match n.decl with
  | .call c => c.sectionMarker?
  | _ => none

/-- Puts `own` after the name of the enclosing scope. A name that starts with `::` is absolute,
    and at the top of a file nothing is written before `::`. -/
def qualify (enclosing separator own : String) : String :=
  if "::".toList <+: own.toList then own
  else if enclosing = "" ∧ separator = "::" then own
  else enclosing ++ separator ++ own

/-- The qualified name of a node inside the scope with the given qualified name. Nodes that
    declare nothing report that scope. -/
def qualifiedIn (enclosing : String) (n : Node) : String :=
  match n.decl with
  | .scope { kind := .root, .. } => ""
  | .scope s => qualify enclosing "::" s.name
  | .const c => qualify enclosing "::" c.name
  | .method m => qualify enclosing (if m.singleton then "::" else "#") m.name
  | .attr a => qualify enclosing "#" (Text.join ", " a.names)
  | .call c => match c.declaredName? with
    | some name => qualify enclosing "::" name
    | none => enclosing
  | .blank => enclosing

/-- One qualified name for each name that a node declares: an attribute has one for each of its
    names, every other node has its qualified name. -/
def declaredIn (enclosing : String) (n : Node) : List String :=
  match n.decl with
  | .attr a => a.names.map fun name => enclosing ++ "#" ++ name
  | _ => [n.qualifiedIn enclosing]

end Node

end InterfaceFile
