import InterfaceFile.Node.Method

/-!
# Calls

Statements that call something: mixins, visibility markers, helpers such as `abstract!`, type
members, struct fields and whatever else. Arguments and blocks are raw text.
-/

namespace InterfaceFile

/-- How a module is mixed in. -/
inductive Mixin where
  /-- `include` -/
  | inclusion
  /-- `extend` -/
  | extension
  /-- `prepend` -/
  | prepending
  deriving DecidableEq, Repr, Inhabited

/-- The word that mixes a module in. -/
def Mixin.keyword : Mixin → String
  | inclusion => "include"
  | extension => "extend"
  | prepending => "prepend"

/-- The two kinds of struct field. -/
inductive StructField where
  | const
  | prop
  deriving DecidableEq, Repr, Inhabited

/-- The word that declares a struct field. -/
def StructField.keyword : StructField → String
  | const => "const"
  | prop => "prop"

/-- What a call statement calls. -/
inductive Callee where
  | mixin (how : Mixin)
  /-- A visibility marker. -/
  | visibility (level : Visibility)
  /-- `name!`; the name has no `!`. -/
  | helper (name : String)
  | mixesInClassMethods
  | requiresAncestor
  /-- `Name = type_member(...)`, or `type_template` for a template. -/
  | typeMember (name : String) (template : Bool)
  | structField (field : StructField)
  | other (name : String)
  deriving DecidableEq, Repr, Inhabited

/-- The called word as it is written. -/
def Callee.word : Callee → String
  | mixin how => how.keyword
  | visibility level => level.keyword
  | helper name => name ++ "!"
  | mixesInClassMethods => "mixes_in_class_methods"
  | requiresAncestor => "requires_ancestor"
  | typeMember _ false => "type_member"
  | typeMember _ true => "type_template"
  | structField field => field.keyword
  | other name => name

/-- A call statement. -/
structure Call where
  callee : Callee
  args : List String := []
  /-- The text of a trailing block. -/
  block : Option String := none
  deriving DecidableEq, Repr, Inhabited

namespace Call

/-- The name that a type member or a struct field declares. -/
def declaredName? (c : Call) : Option String :=
  match c.callee with
  | .typeMember name _ => some name
  | .structField _ => c.args.head?.map Text.symbolName
  | _ => none

/-- Is it a type member or a struct field? -/
def isProperty (c : Call) : Bool :=
  match c.callee with
  | .typeMember _ _ | .structField _ => true
  | _ => false

/-- The visibility that a bare marker sets for the declarations after it. -/
def sectionMarker? (c : Call) : Option Visibility :=
  match c.callee with
  | .visibility level => if c.args.isEmpty && c.block.isNone then some level else none
  | _ => none

end Call

end InterfaceFile
