import InterfaceFile.Text.Pieces

/-!
# Paths

A path is a text in which slashes separate names. Different texts can be the same path: doubled and
trailing slashes and inner `.` steps say nothing. Paths are compared step by step.
-/

namespace InterfaceFile.Path

/-- One step of a path. -/
inductive Step where
  /-- The leading `/` of an absolute path. -/
  | root
  /-- A leading `.`. -/
  | here
  /-- `..` -/
  | up
  /-- A directory or file name. -/
  | name (text : String)
  deriving DecidableEq, Repr

namespace Step

/-- The place of a step among steps of other shapes. -/
def rank : Step → Nat
  | root => 0
  | here => 1
  | up => 2
  | name _ => 3

/-- Steps are ordered by shape, names by their characters. -/
def compare : Step → Step → Ordering
  | name a, name b => Ord.compare a b
  | a, b => Ord.compare a.rank b.rank

/-- The step that a piece between two slashes names, if it names one. -/
def ofPiece? (piece : String) : Option Step :=
  if piece = "" ∨ piece = "." then none
  else if piece = ".." then some up
  else some (name piece)

/-- The piece that names a step; the leading slash is no piece. -/
def piece? : Step → Option String
  | root => none
  | here => some "."
  | up => some ".."
  | name text => some text

end Step

/-- The steps of a path. -/
def steps (path : String) : List Step :=
  let pieces := (Text.split '/' path.toList).map String.ofList
  let named := pieces.filterMap Step.ofPiece?
  if path.toList.head? = some '/' then .root :: named
  else if pieces.head? = some "." then .here :: named
  else named

/-- The one spelling that all texts of the same path share. -/
def normal (path : String) : String :=
  let start := if (steps path).head? = some .root then "/" else ""
  start ++ Text.join "/" ((steps path).filterMap Step.piece?)

/-- The order of two lists of steps. -/
def compareSteps : List Step → List Step → Ordering
  | [], [] => .eq
  | [], _ :: _ => .lt
  | _ :: _, [] => .gt
  | a :: as, b :: bs => (a.compare b).then (compareSteps as bs)

/-- The order of paths. -/
def compare (a b : String) : Ordering :=
  compareSteps (steps a) (steps b)

end InterfaceFile.Path
