import InterfaceFile.Node.Basic
import InterfaceFile.Printer.Call

/-!
# Categories of statements

The families into which a body is sorted, and between which empty lines are put.
-/

namespace InterfaceFile

/-- The families of statements, in the order in which a sorted body has them. -/
inductive Category where
  | mixin
  | helper
  | typeMember
  | structField
  | visibility
  | call
  | const
  | scope
  | attr
  | method
  | blank
  deriving DecidableEq, Repr

namespace Category

/-- The place of a family in the order. -/
def order : Category → Nat
  | mixin => 0
  | helper => 1
  | typeMember => 2
  | structField => 3
  | visibility => 4
  | call => 5
  | const => 6
  | scope => 7
  | attr => 8
  | method => 9
  | blank => 10

/-- The family of a call. -/
def ofCallee : Callee → Category
  | .mixin _ => mixin
  | .helper _ | .mixesInClassMethods | .requiresAncestor => helper
  | .typeMember _ _ => typeMember
  | .structField _ => structField
  | .visibility _ => visibility
  | .other _ => call

end Category

namespace Node

/-- The family of a node. -/
def category (n : Node) : Category :=
  match n.decl with
  | .scope _ => .scope
  | .const _ => .const
  | .method _ => .method
  | .attr _ => .attr
  | .call c => .ofCallee c.callee
  | .blank => .blank

end Node

/-- What a sorted section is ordered by. -/
structure SortKey where
  category : Category
  name : String
  deriving DecidableEq, Repr

namespace SortKey

/-- The key of a node. Scopes and constants are ordered together by name. Properties keep the order
    in which they are declared, so they have no name here; other calls are ordered by their text. -/
def ofNode (n : Node) : SortKey :=
  match n.decl with
  | .scope s => ⟨.const, s.name⟩
  | .const c => ⟨.const, c.name⟩
  | .method m => ⟨.method, m.name⟩
  | .attr a => ⟨.attr, Text.join ", " a.names⟩
  | .call c => ⟨.ofCallee c.callee, if c.isProperty then "" else c.render {}⟩
  | .blank => ⟨.blank, ""⟩

/-- The order of keys: by family, then by name. -/
def le (a b : SortKey) : Bool :=
  a.category.order < b.category.order ||
    (a.category.order = b.category.order && !(b.name < a.name))

end SortKey

end InterfaceFile
