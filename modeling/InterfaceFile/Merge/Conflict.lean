import InterfaceFile.Location

/-!
# Merge conflicts
-/

namespace InterfaceFile

/-- Which of two declarations that disagree stays. -/
inductive Keep where
  /-- Neither. -/
  | neither
  /-- The earlier one. -/
  | left
  /-- The later one. -/
  | right
  deriving DecidableEq, Repr, Inhabited

/-- What two declarations disagree on. -/
inductive ConflictKind where
  | superclass
  | scopeKind
  | constValue
  | signature
  | attributes
  | property
  deriving DecidableEq, Repr

/-- The disagreement in words. -/
def ConflictKind.describe : ConflictKind → String
  | superclass => "superclass mismatch"
  | scopeKind => "scope kind mismatch"
  | constValue => "constant value mismatch"
  | signature => "signature mismatch"
  | attributes => "attribute mismatch"
  | property => "property mismatch"

/-- Two declarations of one name that disagree. -/
structure Conflict where
  kind : ConflictKind
  /-- The qualified name of the declaration. -/
  name : String
  /-- Where the earlier one was read. -/
  left : Option Location
  /-- Where the later one was read. -/
  right : Option Location
  deriving DecidableEq, Repr

/-- The conflict in words. -/
def Conflict.message (c : Conflict) : String :=
  c.kind.describe ++ " for `" ++ c.name ++ "`"

end InterfaceFile
