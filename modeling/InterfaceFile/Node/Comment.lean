import InterfaceFile.Location

/-!
# Comments

A comment belongs to the statement or to the parameter that it documents.
-/

namespace InterfaceFile

/-- A comment. The text has no leading `#`; a text with newlines is printed as several lines. -/
structure Comment where
  text : String
  loc : Option Location := none
  deriving DecidableEq, Repr, Inhabited

namespace Comment

/-- The printed lines of a comment. -/
def lines (c : Comment) : List String :=
  Text.lines c.text

/-- Changes the location of a comment that has one. -/
def mapLoc (f : Location → Location) (c : Comment) : Comment :=
  { c with loc := c.loc.map f }

end Comment

end InterfaceFile
