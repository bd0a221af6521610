import InterfaceFile.Proofs.Reader.Accepted

/-!
# Two spellings of a text

A line may end with a carriage return before its newline or without one, and a text may be the first
part of a longer one. `Spells` relates the characters that the reader has in front of it in two such
cases. Whatever cuts a text at a character that is no part of a line end cuts both texts at the same
place.
-/

namespace InterfaceFile

namespace Text

/-- The text with a carriage return before every newline. -/
def withReturns (s : String) : String :=
  String.ofList (s.toList.flatMap fun c => if c = '\n' then ['\r', '\n'] else [c])

/-- The text without its carriage returns. -/
def withoutReturns (s : String) : String :=
  String.ofList (s.toList.filter (· ≠ '\r'))

end Text

/-- Is the character a part of a line end? -/
def isLineEnd (c : Char) : Bool :=
  c = '\n' || c = '\r'

theorem ne_of_isLineEnd {c : Char} (inLine : isLineEnd c = false) : '\n' ≠ c ∧ '\r' ≠ c := by
  rw [isLineEnd, Bool.or_eq_false_iff, decide_eq_false_iff_not, decide_eq_false_iff_not] at inLine
  exact ⟨Ne.symm inLine.1, Ne.symm inLine.2⟩

/-- How a second text may differ from a first one. -/
structure Respelling where
  /-- Newlines may have a carriage return before them. -/
  returns : Bool
  /-- What stands after the first text, if the second text goes on. -/
  more : Option (List Char)
  deriving DecidableEq, Repr

namespace Respelling

/-- The second text is the first one in the other spelling. If it goes on after the first one, then
    the first one ends with a newline. -/
inductive Spells (m : Respelling) : List Char → List Char → Prop
  | nil (whole : m.more = none) : Spells m [] []
  | last {z : List Char} (goesOn : m.more = some z) : Spells m ['\n'] ('\n' :: z)
  | cons {c : Char} {x x' : List Char} (free : m.returns = true → c ≠ '\r') (rest : Spells m x x') :
      Spells m (c :: x) (c :: x')
  | newline {x x' : List Char} (on : m.returns = true) (rest : Spells m x x') :
      Spells m ('\n' :: x) ('\r' :: '\n' :: x')

/-- The two texts also begin alike: not even the first one of them has a carriage return more. -/
structure Aligned (m : Respelling) (x x' : List Char) : Prop where
  spells : m.Spells x x'
  head : x'.head? = x.head?

/-- The same differences inside a text that is a whole. -/
def whole (m : Respelling) : Respelling :=
  { m with more := none }

variable {m : Respelling} {x x' : List Char} {p : Char → Bool} {c : Char}

theorem Spells.eq_nil (h : m.Spells [] x') : x' = [] ∧ m.more = none := by
  cases h with
  | nil whole => exact ⟨rfl, whole⟩

theorem Spells.nonempty (h : m.Spells x x') (more : m.more.isSome) : '\n' ∈ x := by
  induction h with
  | nil whole =>
    rw [whole] at more
    cases more
  | last => exact List.mem_cons_self
  | cons _ _ ih => exact List.mem_cons_of_mem _ ih
  | newline => exact List.mem_cons_self

theorem Spells.isEmpty_eq (h : m.Spells x x') : x'.isEmpty = x.isEmpty := by
  cases h <;> rfl

/-- If there are no carriage returns to add, then a text spells itself. -/
theorem spells_self (whole : m.more = none) (plain : m.returns = false) (x : List Char) :
    m.Spells x x := by
  induction x with
  | nil => exact .nil whole
  | cons c x ih => exact .cons (by simp [plain]) ih

/-- A text that ends with a newline is the first part of a longer one. -/
theorem spells_append {z : List Char} (goesOn : m.more = some z) (plain : m.returns = false)
    (ended : x.getLast? = some '\n') : m.Spells x (x ++ z) := by
  induction x with
  | nil => cases ended
  | cons c x ih =>
    cases x with
    | nil =>
      obtain rfl : c = '\n' := by simpa using ended
      exact .last goesOn
    | cons d x => exact .cons (by simp [plain]) (ih (by rwa [List.getLast?_cons_cons] at ended))

/-- A text without carriage returns is the first spelling of the text that has them. -/
theorem spells_withReturns (whole : m.more = none) (on : m.returns = true) {s : String}
    (free : '\r' ∉ s.toList) : m.Spells s.toList (Text.withReturns s).toList := by
  rw [Text.withReturns, String.toList_ofList]
  generalize s.toList = x at free
  induction x with
  | nil => exact .nil whole
  | cons c x ih =>
    rw [List.mem_cons, not_or] at free
    rw [List.flatMap_cons]
    by_cases newline : c = '\n'
    · subst newline
      exact .newline on (ih free.2)
    · rw [if_neg newline]
      exact .cons (fun _ same => free.1 same.symm) (ih free.2)

/-! ## Runs of characters -/

/-- A run that no part of a line end belongs to is the same in both texts. -/
theorem Spells.run (newline : p '\n' = false) (ret : p '\r' = false) (h : m.Spells x x') :
    x'.takeWhile p = x.takeWhile p ∧ m.Spells (x.dropWhile p) (x'.dropWhile p) := by
  induction h with
  | nil whole => exact ⟨rfl, .nil whole⟩
  | last goesOn => simpa [newline] using Spells.last goesOn
  | @cons c x x' free rest ih =>
    cases holds : p c with
    | true => simpa [holds] using ih
    | false => simpa [holds] using Spells.cons free rest
  | newline on rest => simpa [newline, ret] using Spells.newline on rest

/-- After a run that carriage returns belong to, both texts begin alike. If newlines belong to it as
    well, then the first text may have been read to its end before the second one goes on. -/
theorem Spells.skip (ret : p '\r' = true) (h : m.Spells x x') :
    m.Aligned (x.dropWhile p) (x'.dropWhile p) ∨ m.more.isSome ∧ x.dropWhile p = [] := by
  induction h with
  | nil whole => exact .inl ⟨.nil whole, rfl⟩
  | last goesOn =>
    cases newline : p '\n' with
    | true => exact .inr ⟨by simp [goesOn], by simp [newline]⟩
    | false => exact .inl (by simpa [newline] using ⟨Spells.last goesOn, rfl⟩)
  | @cons c x x' free rest ih =>
    cases holds : p c with
    | true => simpa [holds] using ih
    | false => exact .inl (by simpa [holds] using ⟨Spells.cons free rest, rfl⟩)
  | @newline x x' on rest ih =>
    cases newline : p '\n' with
    | true => simpa [newline, ret] using ih
    | false => exact .inl (by simpa [newline, ret] using ⟨Spells.cons (by simp) rest, rfl⟩)

/-- A run inside a line does not reach the end of a text that goes on. -/
theorem Spells.skip_line (ret : p '\r' = true) (newline : p '\n' = false) (h : m.Spells x x') :
    m.Aligned (x.dropWhile p) (x'.dropWhile p) := by
  rcases h.skip ret with aligned | ⟨more, none⟩
  · exact aligned
  · have whole := List.takeWhile_append_dropWhile (p := p) (l := x)
    rw [none, List.append_nil] at whole
    have inside := List.all_eq_true.1 List.all_takeWhile '\n' (whole ▸ h.nonempty more)
    rw [newline] at inside
    cases inside

/-- Such a run has a carriage return more at most, and has it at its end. -/
theorem Spells.line (newline : p '\n' = false) (ret : p '\r' = true) (h : m.Spells x x') :
    x'.takeWhile p = x.takeWhile p ∨ x'.takeWhile p = x.takeWhile p ++ ['\r'] := by
  induction h with
  | nil | last => exact .inl (by simp [newline])
  | @cons c x x' _ _ ih =>
    cases holds : p c with
    | true => simpa [holds] using ih
    | false => exact .inl (by simp [holds])
  | newline => exact .inr (by simp [newline, ret])

/-- A word without line ends begins both texts or neither. -/
theorem Spells.drop {w : List Char} (inLine : w.any isLineEnd = false) (h : m.Spells x x') :
    w.isPrefixOf x' = w.isPrefixOf x ∧
      (w.isPrefixOf x = true → m.Spells (x.drop w.length) (x'.drop w.length)) := by
  induction w generalizing x x' with
  | nil => exact ⟨by simp, fun _ => h⟩
  | cons c w ih =>
    rw [List.any_cons, Bool.or_eq_false_iff] at inLine
    obtain ⟨newline, ret⟩ := ne_of_isLineEnd inLine.1
    have differs : (c == '\n') = false := by simpa using newline.symm
    have differs' : (c == '\r') = false := by simpa using ret.symm
    cases h with
    | nil => simp
    | last | newline => simp [List.isPrefixOf_cons_cons, differs, differs', -List.isPrefixOf_iff_prefix]
    | @cons d x x' free rest =>
      obtain ⟨same, left⟩ := ih inLine.2 rest
      simp only [List.isPrefixOf_cons_cons, same, Bool.and_eq_true, List.length_cons,
        List.drop_succ_cons, true_and]
      exact fun begins => left begins.2

/-! ## Whole texts -/

theorem Spells.mem (h : m.whole.Spells x x') (member : c ∈ x') : c ∈ x ∨ c = '\r' := by
  induction h with
  | nil => exact .inl member
  | last goesOn => cases goesOn
  | cons _ _ ih =>
    rcases List.mem_cons.1 member with rfl | inside
    · exact .inl List.mem_cons_self
    · exact (ih inside).imp_left (List.mem_cons_of_mem _)
  | newline _ _ ih =>
    rcases List.mem_cons.1 member with rfl | inside
    · exact .inr rfl
    · rcases List.mem_cons.1 inside with rfl | inside
      · exact .inl List.mem_cons_self
      · exact (ih inside).imp_left (List.mem_cons_of_mem _)

/-- The two texts end alike. -/
theorem Spells.getLast?_eq (h : m.whole.Spells x x') : x'.getLast? = x.getLast? := by
  induction h with
  | nil => rfl
  | last goesOn => cases goesOn
  | cons _ _ ih => rw [List.getLast?_cons, List.getLast?_cons, ih]
  | newline _ _ ih =>
    rw [List.getLast?_cons_cons, List.getLast?_cons, List.getLast?_cons, ih]

/-- A cut through the first text is a cut through the second one. -/
theorem Spells.split {w v : List Char} (h : m.whole.Spells (w ++ v) x') :
    ∃ w' v', x' = w' ++ v' ∧ m.whole.Spells w w' ∧ m.whole.Spells v v' := by
  induction w generalizing x' with
  | nil => exact ⟨[], x', rfl, .nil rfl, h⟩
  | cons c w ih =>
    rw [List.cons_append] at h
    generalize both : w ++ v = u at h
    cases h with
    | last goesOn => cases goesOn
    | cons free rest =>
      subst both
      obtain ⟨w', v', rfl, front, back⟩ := ih rest
      exact ⟨c :: w', v', rfl, .cons free front, back⟩
    | newline on rest =>
      subst both
      obtain ⟨w', v', rfl, front, back⟩ := ih rest
      exact ⟨'\r' :: '\n' :: w', v', rfl, .newline on front, back⟩

theorem Spells.trim (h : m.whole.Spells x x') : m.whole.Spells (Text.trim x) (Text.trim x') := by
  rcases h.skip (p := Text.isBlank) rfl with ⟨begun, -⟩ | ⟨more, -⟩
  · obtain ⟨blank, all, cut⟩ := Text.trim_split x
    rw [cut] at begun
    obtain ⟨w, blank', cut', kept, dropped⟩ := begun.split
    have all' : ∀ c ∈ blank', Text.isBlank c = true := by
      intro c member
      rcases dropped.mem member with inside | rfl
      · exact all c inside
      · rfl
    have ends : Stops Text.isBlank w.reverse := by
      have last := (Text.trimmed_trim x).2
      rwa [Stops, List.head?_reverse, ← kept.getLast?_eq, ← List.head?_reverse] at last
    have trimmed : Text.trim x' = w := by
      rw [Text.trim, cut', List.reverse_append, ends.dropWhile_append (by simpa using all'),
        List.reverse_reverse]
    rwa [trimmed]
  · cases more

/-- The spelling without carriage returns. -/
def undo (m : Respelling) (s : String) : String :=
  if m.returns then Text.withoutReturns s else s

theorem undo_eq (m : Respelling) (s : String) :
    m.undo s = String.ofList (if m.returns then s.toList.filter (· ≠ '\r') else s.toList) := by
  rw [undo]
  split
  · rfl
  · rw [String.ofList_toList]

theorem undo_empty (m : Respelling) : m.undo "" = "" := by
  rw [undo_eq]
  exact congrArg _ (ite_self _)

theorem Spells.undo_eq (h : m.whole.Spells x x') :
    (if m.returns then x'.filter (· ≠ '\r') else x') = x := by
  induction h with
  | nil => exact ite_self _
  | last goesOn => cases goesOn
  | @cons c x x' free _ ih =>
    cases on : m.returns with
    | true =>
      have kept : c ≠ '\r' := free on
      rw [on, if_pos rfl] at ih
      rw [if_pos rfl, List.filter_cons_of_pos (by simpa using kept), ih]
    | false =>
      rw [on, if_neg Bool.false_ne_true] at ih
      rw [if_neg Bool.false_ne_true, ih]
  | newline on _ ih =>
    have set : m.returns = true := on
    rw [if_pos set] at ih ⊢
    rw [List.filter_cons_of_neg (by simp), List.filter_cons_of_pos (by simp), ih]

/-- The two strings are one text in two spellings. -/
def SpellsText (m : Respelling) (s s' : String) : Prop :=
  m.whole.Spells s.toList s'.toList

namespace SpellsText

variable {s s' : String}

theorem undo_eq (h : m.SpellsText s s') : m.undo s' = s := by
  rw [Respelling.undo_eq, Spells.undo_eq h, String.ofList_toList]

theorem eq_empty_iff (h : m.SpellsText s s') : s' = "" ↔ s = "" := by
  have same := Spells.isEmpty_eq h
  rw [Bool.eq_iff_iff, List.isEmpty_iff, List.isEmpty_iff] at same
  simpa using same

theorem symbolName (h : m.SpellsText s s') :
    m.SpellsText (Text.symbolName s) (Text.symbolName s') := by
  have named := (Spells.run (p := (· = ':')) rfl rfl h).2
  rwa [SpellsText, Text.symbolName, Text.symbolName, String.toList_ofList, String.toList_ofList]

end SpellsText

end Respelling

end InterfaceFile
