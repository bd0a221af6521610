import InterfaceFile.Doc

/-!
# The text of a document

A document is a sequence of texts and line breaks. The indentation of a line comes before its first
text, so a reader that skips spaces at the start of a line does not see it.
-/

namespace InterfaceFile

/-- A piece of a document. -/
inductive Atom where
  | text (s : String)
  /-- A line break with the column at which the next line begins. -/
  | line (column : Nat)
  deriving DecidableEq, Repr

namespace Doc

mutual

/-- The pieces of a document whose lines begin at column `indent`. -/
def atoms (indent : Nat) : Doc → List Atom
  | .text s => [.text s]
  | .line => [.line indent]
  | .nest columns doc => doc.atoms (indent + columns)
  | .concat docs => atomsAll indent docs
  | .nil => []

/-- The pieces of documents one after the other. -/
def atomsAll (indent : Nat) : List Doc → List Atom
  | [] => []
  | doc :: docs => doc.atoms indent ++ atomsAll indent docs

end

@[simp]
theorem atomsAll_append (indent : Nat) (ds es : List Doc) :
    atomsAll indent (ds ++ es) = atomsAll indent ds ++ atomsAll indent es := by
  induction ds with
  | nil => rfl
  | cons d rest ih => rw [List.cons_append, atomsAll, atomsAll, ih, List.append_assoc]

/-- Writes one piece. -/
def Page.put (p : Page) : Atom → Page
  | .text s => p.write s
  | .line column => p.newline column

mutual

theorem writeTo_eq : ∀ (doc : Doc) (indent : Nat) (p : Page),
    doc.writeTo indent p = (doc.atoms indent).foldl Page.put p
  | .text s, indent, p => by rw [writeTo, atoms]; rfl
  | .line, indent, p => by rw [writeTo, atoms]; rfl
  | .nest columns doc, indent, p => by rw [writeTo, atoms, writeTo_eq doc]
  | .concat docs, indent, p => by rw [writeTo, atoms, writeAllTo_eq docs]
  | .nil, indent, p => by rw [writeTo, atoms]; rfl

theorem writeAllTo_eq : ∀ (docs : List Doc) (indent : Nat) (p : Page),
    writeAllTo indent docs p = (atomsAll indent docs).foldl Page.put p
  | [], indent, p => by rw [writeAllTo, atomsAll]; rfl
  | doc :: docs, indent, p => by
    rw [writeAllTo, atomsAll, List.foldl_append, writeTo_eq doc, writeAllTo_eq docs]

end

end Doc

/-- The indentation that a line break still owes. -/
def owedSpaces : Option Nat → List Char
  | some columns => List.replicate columns ' '
  | none => []

/-- The text of pieces, after a line break that owes the given indentation. -/
def lay : Option Nat → List Atom → List Char
  | _, [] => []
  | owed, .text s :: rest =>
    if s.isEmpty then lay owed rest else owedSpaces owed ++ s.toList ++ lay none rest
  | _, .line column :: rest => '\n' :: lay (some column) rest

theorem toList_written_foldl (atoms : List Atom) (p : Doc.Page) :
    (atoms.foldl Doc.Page.put p).written.toList = p.written.toList ++ lay p.owed atoms := by
  induction atoms generalizing p with
  | nil => simp [lay]
  | cons atom rest ih =>
    rw [List.foldl_cons, ih]
    cases atom with
    | line column => simp [Doc.Page.put, Doc.Page.newline, lay]
    | text s =>
      by_cases empty : s.isEmpty
      · simp [Doc.Page.put, Doc.Page.write, lay, empty]
      · cases owed : p.owed <;>
          simp [Doc.Page.put, Doc.Page.write, lay, empty, owed, owedSpaces, Text.spaces]

theorem Doc.toList_render (doc : Doc) : doc.render.toList = lay none (doc.atoms 0) := by
  rw [render, writeTo_eq, toList_written_foldl]
  rfl

@[simp]
theorem lay_nil (owed : Option Nat) : lay owed [] = [] := by
  cases owed <;> rfl

@[simp]
theorem lay_line (owed : Option Nat) (column : Nat) (rest : List Atom) :
    lay owed (.line column :: rest) = '\n' :: lay (some column) rest := by
  cases owed <;> rfl

/-- In the middle of a line texts are written as they are. -/
@[simp]
theorem lay_none_text (s : String) (rest : List Atom) :
    lay none (.text s :: rest) = s.toList ++ lay none rest := by
  rw [lay]
  split
  · next empty => simp [String.isEmpty_iff.1 empty]
  · rfl

theorem lay_some_text {s : String} (nonempty : s ≠ "") (column : Nat) (rest : List Atom) :
    lay (some column) (.text s :: rest) =
      List.replicate column ' ' ++ (s.toList ++ lay none rest) := by
  rw [lay, if_neg (by simpa [String.isEmpty_iff] using nonempty), List.append_assoc]
  rfl

/-- What comes after a line break does not depend on what came before it. -/
theorem lay_append_line (owed : Option Nat) (as : List Atom) (column : Nat) (rest : List Atom) :
    lay owed (as ++ .line column :: rest) = lay owed as ++ '\n' :: lay (some column) rest := by
  induction as generalizing owed with
  | nil => simp
  | cons atom as ih =>
    cases atom with
    | line column' => simp [ih]
    | text s =>
      rw [List.cons_append, lay, lay]
      split
      · exact ih owed
      · simp only [ih none, List.append_assoc]

/-- Who skips spaces does not see indentation. -/
theorem dropWhile_lay {p : Char → Bool} (space : p ' ' = true) (owed : Option Nat)
    (atoms : List Atom) : (lay owed atoms).dropWhile p = (lay none atoms).dropWhile p := by
  induction atoms with
  | nil => simp
  | cons atom rest ih =>
    cases atom with
    | line column => simp
    | text s =>
      by_cases empty : s = ""
      · rw [lay_none_text, lay, if_pos (String.isEmpty_iff.2 empty), ih, empty]
        rfl
      · rw [lay_none_text]
        cases owed with
        | none => rw [lay_none_text]
        | some column =>
          rw [lay_some_text empty, List.dropWhile_append_of_pos]
          intro c member
          rw [List.eq_of_mem_replicate member]
          exact space

end InterfaceFile
