import InterfaceFile.Proofs.Printer.Layout
import InterfaceFile.Proofs.Printer.PrintedTexts
import Mathlib.Data.List.Forall2

/-!
# Colours in documents

Colours come as escape sequences around some of the texts of a document. They are part of these texts,
so they stand where no indentation is written any more. Two documents that differ in colours only
are laid out alike, and taking the sequences out of the one text gives the other.
-/

namespace InterfaceFile

/-! ## Texts without escape characters -/

namespace Text

/-- The text has no escape character. -/
def Plain (s : String) : Prop :=
  '\x1b' ∉ s.toList

instance (s : String) : Decidable (Plain s) :=
  inferInstanceAs (Decidable (_ ∉ _))

@[simp]
theorem plain_append {a b : String} : Plain (a ++ b) ↔ Plain a ∧ Plain b :=
  lacks_append

theorem plain_repr (n : Nat) : Plain n.repr := by
  intro inside
  rw [Nat.repr, String.toList_ofList] at inside
  have digit := Nat.isDigit_of_mem_toDigits (by decide) (by decide) inside
  exact absurd digit (by decide)

end Text

theorem Location.plain_describe {l : Location} (plain : ∀ file ∈ l.file, Text.Plain file) :
    Text.Plain l.describe := by
  have file : Text.Plain (l.file.getD "-") := by
    cases h : l.file with
    | none => exact (by decide : Text.Plain "-")
    | some file => exact plain file h
  have colon : Text.Plain ":" := by decide
  have dash : Text.Plain "-" := by decide
  have whole : l.describe = l.file.getD "-" ++ ":" ++ l.start.line.repr ++ ":" ++
      l.start.column.repr ++ "-" ++ l.stop.line.repr ++ ":" ++ l.stop.column.repr := rfl
  simp [whole, file, colon, dash, Text.plain_repr]

/-! ## Taking escape sequences out -/

namespace Style

variable {s p : String}

/-- Without its escape sequences the text `s` is `p`, whatever comes after it, and it does not come to
    nothing. -/
def StripsTo (s p : String) : Prop :=
  s.isEmpty = p.isEmpty ∧
    ∀ rest, stripFrom false (s.toList ++ rest) = p.toList ++ stripFrom false rest

theorem stripFrom_append {cs : List Char} (plain : '\x1b' ∉ cs) (rest : List Char) :
    stripFrom false (cs ++ rest) = cs ++ stripFrom false rest := by
  induction cs with
  | nil => rfl
  | cons c cs ih =>
    obtain ⟨other, plain⟩ : ¬ '\x1b' = c ∧ '\x1b' ∉ cs := by simpa using plain
    rw [List.cons_append, stripFrom, if_neg (by simp), if_neg (Ne.symm other), ih plain]
    rfl

theorem stripsTo_self (plain : Text.Plain s) : StripsTo s s :=
  ⟨rfl, stripFrom_append plain⟩

/-- A style is one escape sequence. -/
def IsSequence (style : Style) : Prop :=
  ∀ rest, stripFrom false (style.code.toList ++ rest) = stripFrom false rest

theorem isSequence_reset : IsSequence reset := fun _ => rfl

theorem isSequence_comment : IsSequence comment := fun _ => rfl

theorem isSequence_keyword : IsSequence keyword := fun _ => rfl

theorem isSequence_sig : IsSequence sig := fun _ => rfl

theorem isSequence_name : IsSequence name := fun _ => rfl

/-- A painted text is the text with two sequences around it, and an empty one stays empty. -/
theorem stripsTo_paint {style : Style} (sequence : style.IsSequence) (enabled : Bool)
    (plain : Text.Plain s) : StripsTo (style.paint enabled s) s := by
  rw [paint]
  split
  · next painted =>
    have nonempty : s.isEmpty = false := by simpa using (Bool.and_eq_true_iff.1 painted).2
    refine ⟨?_, fun rest => ?_⟩
    · rw [nonempty, Bool.eq_false_iff]
      intro empty
      have none := congrArg String.toList (String.isEmpty_iff.1 empty)
      simp [reset] at none
    · rw [String.toList_append, String.toList_append, List.append_assoc, List.append_assoc, sequence,
        stripFrom_append plain, isSequence_reset]
  · exact stripsTo_self plain

end Style

/-! ## Documents that differ in colours -/

/-- A piece with escape sequences and the piece without them. -/
inductive Atom.StripsTo : Atom → Atom → Prop
  | text {s p : String} (h : Style.StripsTo s p) : StripsTo (.text s) (.text p)
  | line (column : Nat) : StripsTo (.line column) (.line column)

/-- Indentation is written before the same texts, whether they are painted or not. -/
theorem stripFrom_lay {as bs : List Atom} (h : List.Forall₂ Atom.StripsTo as bs) (owed : Option Nat) :
    Style.stripFrom false (lay owed as) = lay owed bs := by
  have spaces : ∀ owed : Option Nat, '\x1b' ∉ owedSpaces owed := by
    intro owed inside
    cases owed with
    | none => cases inside
    | some columns => exact absurd (List.eq_of_mem_replicate inside) (by decide)
  induction h generalizing owed with
  | nil => rw [lay_nil, Style.stripFrom]
  | cons piece _ ih =>
    cases piece with
    | line column =>
      rw [lay_line, lay_line, Style.stripFrom, ih]
      rfl
    | @text s p stripped =>
      rw [lay, lay, stripped.1]
      split
      · exact ih owed
      · rw [List.append_assoc, Style.stripFrom_append (spaces owed), stripped.2, ih, List.append_assoc]

/-- Without escape sequences the documents `ds` are the documents `es`. -/
def Uncolours (ds es : List Doc) : Prop :=
  ∀ indent, List.Forall₂ Atom.StripsTo (Doc.atomsAll indent ds) (Doc.atomsAll indent es)

namespace Uncolours

variable {d d' : Doc} {ds ds' es es' : List Doc} {s : String}

theorem nil : Uncolours [] [] :=
  fun _ => .nil

theorem append (h : Uncolours ds es) (h' : Uncolours ds' es') :
    Uncolours (ds ++ ds') (es ++ es') := by
  intro indent
  rw [Doc.atomsAll_append, Doc.atomsAll_append]
  exact List.rel_append (h indent) (h' indent)

theorem cons (h : Uncolours [d] [d']) (h' : Uncolours ds es) : Uncolours (d :: ds) (d' :: es) :=
  append h h'

theorem stripped {p : String} (h : Style.StripsTo s p) : Uncolours [.text s] [.text p] :=
  fun _ => .cons (.text h) .nil

theorem text (plain : Text.Plain s) : Uncolours [.text s] [.text s] :=
  stripped (Style.stripsTo_self plain)

theorem line : Uncolours [.line] [.line] :=
  fun indent => .cons (.line indent) .nil

theorem concat (h : Uncolours ds es) : Uncolours [.concat ds] [.concat es] := by
  intro indent
  rw [Doc.atomsAll, Doc.atoms, Doc.atomsAll, List.append_nil, Doc.atomsAll, Doc.atoms, Doc.atomsAll,
    List.append_nil]
  exact h indent

theorem nest (columns : Nat) (h : Uncolours [d] [d']) :
    Uncolours [.nest columns d] [.nest columns d'] := by
  intro indent
  have inside := h (indent + columns)
  rwa [Doc.atomsAll, Doc.atomsAll, List.append_nil, Doc.atomsAll, Doc.atomsAll, List.append_nil]
    at inside ⊢

theorem flatMap {α : Type} {as : List α} {f g : α → List Doc} (h : ∀ a ∈ as, Uncolours (f a) (g a)) :
    Uncolours (as.flatMap f) (as.flatMap g) := by
  induction as with
  | nil => exact nil
  | cons a as ih =>
    obtain ⟨here, after⟩ := List.forall_mem_cons.1 h
    rw [List.flatMap_cons, List.flatMap_cons]
    exact here.append (ih after)

/-- After the same line break the documents are the same. -/
theorem tail (h : Uncolours (.line :: ds) (.line :: es)) : Uncolours ds es := by
  intro indent
  cases h indent with
  | cons _ rest => exact rest

/-- The printed text without escape sequences is the text of the other document. -/
theorem strip_render (h : Uncolours [d] [d']) : Style.strip d.render = d'.render := by
  have same := h 0
  rw [Doc.atomsAll, Doc.atomsAll, List.append_nil, Doc.atomsAll, Doc.atomsAll, List.append_nil] at same
  rw [Style.strip, Doc.toList_render, stripFrom_lay same, ← Doc.toList_render, String.ofList_toList]

end Uncolours

end InterfaceFile
