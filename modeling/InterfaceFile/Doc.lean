import InterfaceFile.Text.Pieces

/-!
# Documents

Text with explicit line breaks and nested indentation. Line breaks are never chosen to fit a width.
The indentation of a line is written together with the first text of that line, so an empty line
carries none.
-/

namespace InterfaceFile

/-- A printable document. -/
inductive Doc where
  | text (s : String)
  /-- A line break. -/
  | line
  /-- Indents the lines that begin inside by so many more columns. -/
  | nest (columns : Nat) (doc : Doc)
  | concat (docs : List Doc)
  | nil
  deriving Repr

namespace Doc

/-- The documents with `separator` between neighbours. -/
def join (separator : Doc) (docs : List Doc) : Doc :=
  .concat (docs.intersperse separator)

/-- The documents one after the other. If the first of several is a concatenation, then the others
    become further parts of it. -/
def sequence : List Doc → Doc
  | .concat parts :: next :: rest => .concat (parts ++ next :: rest)
  | docs => .concat docs

/-- The number of parts of a concatenation. -/
def parts? : Doc → Option Nat
  | .concat docs => some docs.length
  | _ => none

/-- Text written so far, and the indentation that the line break at its end still owes. -/
structure Page where
  written : String := ""
  owed : Option Nat := none
  deriving DecidableEq, Repr, Inhabited

namespace Page

/-- Writes text. The empty text leaves the owed indentation owed. -/
def write (s : String) (p : Page) : Page :=
  if s.isEmpty then p
  else
    { written := match p.owed with
        | some columns => p.written ++ Text.spaces columns ++ s
        | none => p.written ++ s
      owed := none }

/-- Begins a line with the given indentation. -/
def newline (columns : Nat) (p : Page) : Page :=
  { written := p.written ++ "\n", owed := some columns }

end Page

mutual

/-- Writes a document whose lines begin at column `indent`. -/
def writeTo (indent : Nat) : Doc → Page → Page
  | .text s, p => p.write s
  | .line, p => p.newline indent
  | .nest columns doc, p => doc.writeTo (indent + columns) p
  | .concat docs, p => writeAllTo indent docs p
  | .nil, p => p

/-- Writes documents one after the other. -/
def writeAllTo (indent : Nat) : List Doc → Page → Page
  | [], p => p
  | doc :: docs, p => writeAllTo indent docs (doc.writeTo indent p)

end

/-- The text of a document. -/
def render (doc : Doc) : String :=
  (doc.writeTo 0 {}).written

end Doc

end InterfaceFile
