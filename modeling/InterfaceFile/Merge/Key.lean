import InterfaceFile.Node.Basic
import InterfaceFile.Printer.Call

/-!
# Keys of declarations

Inside one scope, two declarations with the same key are declarations of the same thing.
-/

namespace InterfaceFile

/-- What a declaration is known by inside its scope. -/
inductive Key where
  | scope (name : String)
  | const (name : String)
  | method (name : String) (singleton : Bool)
  | attr (names : List String)
  | property (name : String)
  /-- A call that declares nothing is known by its text. -/
  | call (text : String)
  deriving DecidableEq, Repr

namespace Node

/-- The key of a node. Empty lines have none. -/
def key? (n : Node) : Option Key :=
  match n.decl with
  | .scope s => some (.scope s.name)
  | .const c => some (.const c.name)
  | .method m => some (.method m.name m.singleton)
  | .attr a => some (.attr a.names)
  | .call c => match c.declaredName? with
    | some name => some (.property name)
    | none => some (.call (c.render {}))
  | .blank => none

/-- The node with the visibility of the section that it stands in. A method or attribute that says
    more than `public` for itself keeps what it says. -/
def inSection (level : Visibility) (n : Node) : Node :=
  match n.decl with
  | .method m =>
    if m.visibility = .pub then { n with decl := .method { m with visibility := level } } else n
  | .attr a =>
    if a.visibility = .pub then { n with decl := .attr { a with visibility := level } } else n
  | _ => n

end Node

end InterfaceFile
