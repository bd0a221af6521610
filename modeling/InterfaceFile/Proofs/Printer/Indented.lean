import InterfaceFile.Proofs.Printer.Layout
import InterfaceFile.Proofs.Printer.PrintedTexts

/-!
# Indented texts

A document that stands further right is printed as the same text with spaces before its lines. Empty
lines get none, since the indentation of a line is written with its first text. This needs texts
without line ends of their own: the lines inside a text are not indented.
-/

namespace InterfaceFile

/-! ## Lines that are moved to the right -/

namespace Text

/-- Puts `n` spaces before every line that is not empty. -/
def indent (n : Nat) (s : String) : String :=
  join "\n" ((lines s).map fun line => if line.isEmpty then line else spaces n ++ line)

/-- Puts `n` spaces before every line that is not empty, character by character. `fresh` says whether
    the text begins at the start of a line. -/
def shiftFrom (n : Nat) : Bool → List Char → List Char
  | _, [] => []
  | fresh, c :: cs =>
    if c = '\n' then '\n' :: shiftFrom n true cs
    else (if fresh then List.replicate n ' ' else []) ++ c :: shiftFrom n false cs

theorem shiftFrom_false_append {n : Nat} {cs : List Char} (line : '\n' ∉ cs) (rest : List Char) :
    shiftFrom n false (cs ++ rest) = cs ++ shiftFrom n false rest := by
  induction cs with
  | nil => rfl
  | cons c cs ih =>
    obtain ⟨other, line⟩ : ¬ '\n' = c ∧ '\n' ∉ cs := by simpa using line
    rw [List.cons_append, shiftFrom, if_neg (Ne.symm other), ih line]
    rfl

/-- A line is moved as a whole. -/
theorem shiftFrom_append {n : Nat} {cs : List Char} (line : '\n' ∉ cs) (nonempty : cs ≠ [])
    (fresh : Bool) (rest : List Char) :
    shiftFrom n fresh (cs ++ rest) =
      (if fresh then List.replicate n ' ' else []) ++ cs ++ shiftFrom n false rest := by
  cases cs with
  | nil => exact absurd rfl nonempty
  | cons c cs =>
    obtain ⟨other, line⟩ : ¬ '\n' = c ∧ '\n' ∉ cs := by simpa using line
    rw [List.cons_append, shiftFrom, if_neg (Ne.symm other), shiftFrom_false_append line,
      List.append_assoc]
    rfl

theorem toList_join_cons (separator : Char) (s : String) (rest : List String) :
    (join (String.singleton separator) (s :: rest)).toList =
      s.toList ++ rest.flatMap fun r => separator :: r.toList := by
  induction rest generalizing s with
  | nil => rw [join_singleton, List.flatMap_nil, List.append_nil]
  | cons r rest ih =>
    rw [join_cons_cons, String.toList_append, String.toList_append, ih, List.append_assoc]
    simp

/-- The lines before a chosen one end in line breaks, the lines after it begin with them. -/
theorem toList_join_around (xs : List String) (y : String) (zs : List String) :
    (join "\n" (xs ++ y :: zs)).toList =
      (xs.flatMap fun x => x.toList ++ ['\n']) ++ (y.toList ++ zs.flatMap fun z => '\n' :: z.toList) := by
  induction xs with
  | nil => exact toList_join_cons '\n' y zs
  | cons x xs ih =>
    have step : join "\n" (x :: (xs ++ y :: zs)) = x ++ "\n" ++ join "\n" (xs ++ y :: zs) := by
      cases rest : xs ++ y :: zs with
      | nil => simp at rest
      | cons r rest => exact join_cons_cons _ _ _ _
    rw [List.cons_append, step, String.toList_append, String.toList_append, ih, List.flatMap_cons,
      List.append_assoc _ _ (y.toList ++ _)]
    rfl

/-- The two ways to indent are the same. -/
theorem toList_indent (n : Nat) (s : String) : (indent n s).toList = shiftFrom n true s.toList := by
  let padded : List Char → List Char :=
    fun piece => if piece.isEmpty then [] else List.replicate n ' ' ++ piece
  -- The first piece goes on a line that has begun or begins a line itself.
  have pieces : ∀ cs : List Char, ∃ p ps, split '\n' cs = p :: ps ∧
      shiftFrom n false cs = p ++ ps.flatMap (fun q => '\n' :: padded q) ∧
      shiftFrom n true cs = padded p ++ ps.flatMap (fun q => '\n' :: padded q) := by
    intro cs
    induction cs with
    | nil => exact ⟨[], [], rfl, rfl, rfl⟩
    | cons c cs ih =>
      obtain ⟨p, ps, cut, running, fresh⟩ := ih
      have unfolded : split '\n' (c :: cs) = consPiece '\n' c (split '\n' cs) := rfl
      rw [unfolded, cut, consPiece, shiftFrom, shiftFrom]
      by_cases ends : c = '\n'
      · rw [if_pos ends, if_pos ends, if_pos ends, fresh]
        exact ⟨[], p :: ps, rfl, rfl, rfl⟩
      · rw [if_neg ends, if_neg ends, if_neg ends, running]
        exact ⟨c :: p, ps, rfl, rfl, by simp [padded]⟩
  obtain ⟨p, ps, cut, -, fresh⟩ := pieces s.toList
  have shown : ∀ piece : List Char,
      (if (String.ofList piece).isEmpty then String.ofList piece
        else spaces n ++ String.ofList piece).toList = padded piece := by
    intro piece
    by_cases empty : piece = []
    · subst empty
      rfl
    · have written : (String.ofList piece).isEmpty = false := by
        simpa [String.isEmpty_iff] using empty
      simp [padded, written, empty, spaces]
  rw [fresh, indent, lines, cut, List.map_map, List.map_cons]
  show (join (String.singleton '\n') _).toList = _
  rw [toList_join_cons, List.flatMap_map]
  simp only [Function.comp_apply, shown]

end Text

/-! ## Documents that are moved to the right -/

/-- The piece of a document that is moved by `n` columns. -/
def Atom.shift (n : Nat) : Atom → Atom
  | text s => text s
  | line column => line (column + n)

namespace Doc

mutual

theorem atoms_add (n : Nat) : ∀ (doc : Doc) (indent : Nat),
    doc.atoms (indent + n) = (doc.atoms indent).map (Atom.shift n)
  | .text _, _ => rfl
  | .line, _ => rfl
  | .nest columns doc, indent => by
    rw [atoms, atoms, Nat.add_right_comm, atoms_add n doc]
  | .concat docs, indent => by
    rw [atoms, atoms, atomsAll_add n docs]
  | .nil, _ => rfl

theorem atomsAll_add (n : Nat) : ∀ (docs : List Doc) (indent : Nat),
    atomsAll (indent + n) docs = (atomsAll indent docs).map (Atom.shift n)
  | [], _ => rfl
  | doc :: docs, indent => by
    rw [atomsAll, atomsAll, List.map_append, atoms_add n doc, atomsAll_add n docs]

end

mutual

/-- No text of the document has a line end of its own. -/
def Flat : Doc → Prop
  | .text s => Text.Lacks '\n' s
  | .line | .nil => True
  | .nest _ doc => doc.Flat
  | .concat docs => FlatAll docs

/-- No text of the documents has a line end of its own. -/
def FlatAll : List Doc → Prop
  | [] => True
  | doc :: docs => doc.Flat ∧ FlatAll docs

end

attribute [simp] Flat FlatAll

@[simp]
theorem flatAll_append {ds es : List Doc} : FlatAll (ds ++ es) ↔ FlatAll ds ∧ FlatAll es := by
  induction ds with
  | nil => simp
  | cons d ds ih => simp [ih, and_assoc]

theorem flatAll_iff {ds : List Doc} : FlatAll ds ↔ ∀ d ∈ ds, d.Flat := by
  induction ds with
  | nil => simp
  | cons d ds ih => simp [ih]

theorem flatAll_flatMap {α : Type} {as : List α} {f : α → List Doc} :
    FlatAll (as.flatMap f) ↔ ∀ a ∈ as, FlatAll (f a) := by
  induction as with
  | nil => simp
  | cons a as ih => simp [ih]

theorem flatAll_intersperse {separator : Doc} (between : separator.Flat) :
    ∀ {ds : List Doc}, FlatAll ds → FlatAll (ds.intersperse separator)
  | [], _ => trivial
  | [_], flat => flat
  | d :: e :: rest, flat => by
    rw [List.intersperse_cons_cons]
    exact ⟨flat.1, between, flatAll_intersperse between flat.2⟩

mutual

theorem Flat.of_mem_atoms {indent : Nat} {s : String} : ∀ doc : Doc, doc.Flat →
    .text s ∈ doc.atoms indent → '\n' ∉ s.toList
  | .text s, flat, member => by
    cases List.mem_singleton.1 member
    exact flat
  | .line, _, member => by cases List.mem_singleton.1 member
  | .nest _ doc, flat, member => Flat.of_mem_atoms doc flat member
  | .concat docs, flat, member => FlatAll.of_mem_atomsAll docs flat member
  | .nil, _, member => by cases member

theorem FlatAll.of_mem_atomsAll {indent : Nat} {s : String} : ∀ docs : List Doc, FlatAll docs →
    .text s ∈ atomsAll indent docs → '\n' ∉ s.toList
  | [], _, member => by cases member
  | doc :: docs, flat, member => by
    rcases List.mem_append.1 member with here | later
    · exact Flat.of_mem_atoms doc flat.1 here
    · exact FlatAll.of_mem_atomsAll docs flat.2 later

end

end Doc

/-- No indentation is owed as much as none at all. -/
@[simp]
theorem lay_some_zero (as : List Atom) : lay (some 0) as = lay none as := by
  induction as with
  | nil => rfl
  | cons atom rest ih =>
    cases atom with
    | line column => rw [lay_line, lay_line]
    | text s =>
      rw [lay, lay, ih]
      rfl

/-- Pieces that are moved are laid out as the text with its lines moved. -/
theorem lay_shift (n : Nat) {as : List Atom} (flat : ∀ s, Atom.text s ∈ as → '\n' ∉ s.toList)
    (owed : Option Nat) :
    lay (owed.map (· + n)) (as.map (Atom.shift n)) = Text.shiftFrom n owed.isSome (lay owed as) := by
  induction as generalizing owed with
  | nil => simp [Text.shiftFrom]
  | cons atom rest ih =>
    have after : ∀ s, Atom.text s ∈ rest → '\n' ∉ s.toList :=
      fun s member => flat s (List.mem_cons_of_mem _ member)
    cases atom with
    | line column =>
      rw [List.map_cons, Atom.shift, lay_line, lay_line, Text.shiftFrom, if_pos rfl]
      exact congrArg _ (ih after (some column))
    | text s =>
      rw [List.map_cons, Atom.shift, lay, lay]
      split
      · exact ih after owed
      · next written =>
        have own := flat s List.mem_cons_self
        have nonempty : s.toList ≠ [] := by simpa [String.isEmpty_iff] using written
        have rest := ih after none
        cases owed with
        | none =>
          show s.toList ++ lay (Option.map (· + n) none) _ = _
          rw [rest]
          exact (Text.shiftFrom_append own nonempty false _).symm
        | some column =>
          have line : '\n' ∉ List.replicate column ' ' ++ s.toList := by
            simpa [List.mem_replicate] using own
          show List.replicate (column + n) ' ' ++ s.toList ++ lay (Option.map (· + n) none) _ = _
          rw [rest, Nat.add_comm, ← List.replicate_append_replicate, List.append_assoc _ _ s.toList]
          exact (Text.shiftFrom_append line (by simp [nonempty]) true _).symm

/-- On a fresh line that begins at column `n` a document is printed as its text with the lines moved
    by `n` columns. -/
theorem Doc.lay_atoms {doc : Doc} (flat : doc.Flat) (n : Nat) :
    lay (some n) (doc.atoms n) = (Text.indent n doc.render).toList := by
  have texts : ∀ s, Atom.text s ∈ doc.atoms 0 → '\n' ∉ s.toList := fun s => Flat.of_mem_atoms doc flat
  have moved := lay_shift n texts (some 0)
  rw [← atoms_add, lay_some_zero, ← toList_render, Option.map_some, Nat.zero_add] at moved
  rw [Text.toList_indent, moved, Option.isSome_some]

end InterfaceFile
