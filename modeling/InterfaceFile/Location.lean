import InterfaceFile.Text.Path

/-!
# Places in source files

A `Location` is a range of lines and columns in a file that may have no name. Files are compared as
paths, so two spellings of one path are the same file.
-/

namespace InterfaceFile

/-- A line, counted from 1, and a column, counted in characters from 0. -/
structure Place where
  line : Nat
  column : Nat
  deriving DecidableEq, Repr, Inhabited

namespace Place

/-- Reading order. -/
def before (a b : Place) : Bool :=
  a.line < b.line || (a.line = b.line && a.column < b.column)

/-- The earlier of two places. -/
def earlier (a b : Place) : Place :=
  if b.before a then b else a

/-- The later of two places. -/
def later (a b : Place) : Place :=
  if a.before b then b else a

end Place

/-- A range of a source file; `file` is absent for text that came from no file. -/
structure Location where
  file : Option String
  start : Place
  stop : Place
  deriving DecidableEq, Repr, Inhabited

namespace Location

/-- The least range that covers both, in the file of the first. -/
def join (a b : Location) : Location :=
  { file := a.file, start := a.start.earlier b.start, stop := a.stop.later b.stop }

/-- The written form, such as `foo.rbi:1:0-3:3`; a range without a file has `-` before the colon. -/
def describe (l : Location) : String :=
  let file := l.file.getD "-"
  s!"{file}:{l.start.line}:{l.start.column}-{l.stop.line}:{l.stop.column}"

/-- The same range with its file in the one spelling of that path. -/
def normal (l : Location) : Location :=
  { l with file := l.file.map Path.normal }

/-- No file comes before every file; files are in path order. -/
def compareFiles : Option String → Option String → Ordering
  | none, none => .eq
  | none, some _ => .lt
  | some _, none => .gt
  | some f, some g => Path.compare f g

/-- Ranges are ordered by file, then by lines and columns. -/
def compare (a b : Location) : Ordering :=
  (compareFiles a.file b.file).then <| (Ord.compare a.start.line b.start.line).then <|
    (Ord.compare a.start.column b.start.column).then <|
      (Ord.compare a.stop.line b.stop.line).then (Ord.compare a.stop.column b.stop.column)

end Location

end InterfaceFile
