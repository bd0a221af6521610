import InterfaceFile.Proofs.Printer.Indented

/-!
# The lines of a document

The pieces of a document make up its lines: the texts before the first line break, and for every line
break the texts up to the next one. That is what the rendered text is, although the indentation of a
line is written by whichever text comes first on it, however deep that text stands. So a document
counts for its pieces alone, and the empty texts among them do not count, wherever it stands.
-/

namespace InterfaceFile

/-- A line that a line break begins. -/
structure DocLine where
  column : Nat
  texts : List String
  deriving DecidableEq, Repr

/-- A line as it is written: nothing if all its texts are empty, otherwise its indentation and its
    texts. -/
def DocLine.written (l : DocLine) : String :=
  if l.texts.all String.isEmpty then "" else Text.spaces l.column ++ String.join l.texts

/-- The texts of the first line, and the lines that line breaks begin. -/
def Atom.lines : List Atom → List String × List DocLine
  | [] => ([], [])
  | .text s :: rest => (s :: (lines rest).1, (lines rest).2)
  | .line column :: rest => ([], ⟨column, (lines rest).1⟩ :: (lines rest).2)

namespace DocLine

theorem written_cons_empty (column : Nat) (texts : List String) :
    written ⟨column, "" :: texts⟩ = written ⟨column, texts⟩ := by
  simp [written, String.join_cons]

theorem toList_written_cons {s : String} (nonempty : s ≠ "") (column : Nat) (texts : List String) :
    (written ⟨column, s :: texts⟩).toList =
      List.replicate column ' ' ++ (s.toList ++ (String.join texts).toList) := by
  have shown : (s :: texts).all String.isEmpty = false := by
    simp [String.isEmpty_iff, nonempty]
  simp [written, shown, Text.spaces, String.join_cons]

end DocLine

/-- The texts on a line as they are written, where the line owes the given indentation. -/
def writtenAfter : Option Nat → List String → String
  | none, texts => String.join texts
  | some column, texts => DocLine.written ⟨column, texts⟩

/-- The text of pieces, line by line. -/
theorem lay_eq_lines (owed : Option Nat) (atoms : List Atom) :
    lay owed atoms = (writtenAfter owed (Atom.lines atoms).1).toList ++
      (Atom.lines atoms).2.flatMap fun l => '\n' :: l.written.toList := by
  induction atoms generalizing owed with
  | nil => cases owed <;> rfl
  | cons atom rest ih =>
    cases atom with
    | line column =>
      have none : writtenAfter owed [] = "" := by cases owed <;> rfl
      rw [lay_line, ih, Atom.lines, none]
      rfl
    | text s =>
      simp only [Atom.lines]
      cases owed with
      | none => simp [ih none, writtenAfter, String.join_cons]
      | some column =>
        by_cases empty : s = ""
        · rw [lay, if_pos (String.isEmpty_iff.2 empty), ih, empty, writtenAfter, writtenAfter,
            DocLine.written_cons_empty]
        · rw [lay_some_text empty, ih none, writtenAfter, writtenAfter,
            DocLine.toList_written_cons empty]
          simp only [List.append_assoc]

/-- Is it anything but the empty text? -/
def Atom.shows : Atom → Bool
  | text s => !s.isEmpty
  | line _ => true

/-- Empty texts leave no trace. -/
theorem lay_filter_shows (owed : Option Nat) (atoms : List Atom) :
    lay owed (atoms.filter Atom.shows) = lay owed atoms := by
  induction atoms generalizing owed with
  | nil => rfl
  | cons atom rest ih =>
    cases atom with
    | line column => rw [List.filter_cons_of_pos rfl, lay_line, lay_line, ih]
    | text s =>
      by_cases empty : s.isEmpty
      · rw [List.filter_cons_of_neg (by simp [Atom.shows, empty]), ih, lay, if_pos empty]
      · rw [List.filter_cons_of_pos (by simp [Atom.shows, empty]), lay, lay, ih, ih]

namespace Doc

/-- A document is rendered line by line. -/
theorem render_eq_lines (doc : Doc) :
    doc.render = Text.join "\n" (String.join (Atom.lines (doc.atoms 0)).1 ::
      (Atom.lines (doc.atoms 0)).2.map DocLine.written) := by
  refine String.toList_inj.1 ?_
  rw [toList_render, lay_eq_lines, show "\n" = String.singleton '\n' from rfl,
    Text.toList_join_cons, List.flatMap_map]
  rfl

/-! ## Documents inside documents -/

/-- The pieces of a document without empty texts. -/
def pieces (indent : Nat) (doc : Doc) : List Atom :=
  (doc.atoms indent).filter Atom.shows

/-- What stands around a document. -/
inductive Surroundings where
  | nothing
  | nest (columns : Nat) (inner : Surroundings)
  | concat (before : List Doc) (inner : Surroundings) (after : List Doc)
  | sequence (before : List Doc) (inner : Surroundings) (after : List Doc)

/-- The document with its surroundings. -/
def Surroundings.around : Surroundings → Doc → Doc
  | nothing, doc => doc
  | nest columns inner, doc => .nest columns (inner.around doc)
  | concat before inner after, doc => .concat (before ++ inner.around doc :: after)
  | sequence before inner after, doc => .sequence (before ++ inner.around doc :: after)

/-- Do two documents render alike, whatever stands around them? -/
def Alike (d e : Doc) : Prop :=
  ∀ s : Surroundings, (s.around d).render = (s.around e).render

theorem pieces_concat (indent : Nat) (docs : List Doc) :
    (Doc.concat docs).pieces indent = (atomsAll indent docs).filter Atom.shows := by
  rw [pieces, atoms]

/-- Putting documents in a row is concatenating them. -/
theorem atoms_sequence (indent : Nat) (docs : List Doc) :
    (sequence docs).atoms indent = atomsAll indent docs := by
  unfold sequence
  split
  · simp only [atoms, atomsAll, atomsAll_append]
  · rw [atoms]

theorem pieces_sequence (indent : Nat) (docs : List Doc) :
    (sequence docs).pieces indent = (Doc.concat docs).pieces indent := by
  rw [pieces, pieces, atoms_sequence, atoms]

/-- Documents with the same pieces have the same pieces wherever they stand. -/
theorem pieces_around {d e : Doc} (same : ∀ indent, d.pieces indent = e.pieces indent)
    (s : Surroundings) (indent : Nat) :
    (s.around d).pieces indent = (s.around e).pieces indent := by
  induction s generalizing indent with
  | nothing => exact same indent
  | nest columns inner ih =>
    have deeper := ih (indent + columns)
    rwa [pieces, pieces] at deeper ⊢
  | concat before inner after ih | sequence before inner after ih =>
    have inside := ih indent
    rw [pieces, pieces] at inside
    simp only [Surroundings.around, pieces_sequence, pieces_concat, atomsAll_append, atomsAll,
      List.filter_append, inside]

theorem alike_of_pieces {d e : Doc} (same : ∀ indent, d.pieces indent = e.pieces indent) :
    d.Alike e := by
  intro s
  refine String.toList_inj.1 ?_
  rw [toList_render, toList_render, ← lay_filter_shows none (atoms 0 _),
    ← lay_filter_shows none (atoms 0 (s.around e))]
  exact congrArg (lay none) (pieces_around same s 0)

end Doc

open Doc in
/-- A rendered document is its lines: the texts of the first line, and after each line break the
    indentation that the breaks have there and the texts up to the next one, or nothing if these are
    empty. So whatever stands around them, documents in a row are their concatenation, nothing and
    empty texts do not show, concatenations inside each other are one, and indentations add up. -/
theorem documents_are_their_lines :
    (∀ d : Doc, d.render = Text.join "\n" (String.join (Atom.lines (d.atoms 0)).1 ::
      (Atom.lines (d.atoms 0)).2.map DocLine.written)) ∧
    (∀ docs, (sequence docs).Alike (.concat docs)) ∧
    (∀ before after, (Doc.concat (before ++ .nil :: after)).Alike (.concat (before ++ after))) ∧
    (∀ before after, (Doc.concat (before ++ .text "" :: after)).Alike (.concat (before ++ after))) ∧
    (∀ before docs after, (Doc.concat (before ++ .concat docs :: after)).Alike
      (.concat (before ++ docs ++ after))) ∧
    ∀ a b d, (Doc.nest a (.nest b d)).Alike (.nest (a + b) d) := by
  refine ⟨render_eq_lines, fun docs => ?_, fun before after => ?_, fun before after => ?_,
    fun before docs after => ?_, fun a b d => ?_⟩
  · exact alike_of_pieces fun indent => pieces_sequence indent docs
  · exact alike_of_pieces fun indent => by
      simp only [pieces_concat, atomsAll_append, atomsAll, atoms, List.nil_append]
  · exact alike_of_pieces fun indent => by
      simp only [pieces_concat, atomsAll_append, atomsAll, atoms, List.filter_append,
        List.cons_append, List.nil_append]
      rfl
  · exact alike_of_pieces fun indent => by
      simp only [pieces_concat, atomsAll_append, atomsAll, atoms, List.append_assoc]
  · exact alike_of_pieces fun indent => by rw [pieces, pieces, atoms, atoms, atoms, Nat.add_assoc]

/-- A break inside an indentation is followed by empty text and by text outside it. -/
example : (Doc.concat [.text "A", .nest 2 (.concat [.line, .text "", .line]), .nil, .text "B"]).render =
    "A\n\n  B" := by
  decide

end InterfaceFile
