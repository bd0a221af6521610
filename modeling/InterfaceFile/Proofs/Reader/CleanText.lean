import InterfaceFile.Proofs.Reader.Reads
import InterfaceFile.Reader.RawText

/-!
# Clean raw text

A raw text is clean if a reader that takes raw text takes it as a whole: nothing in it stops the
reader, what it opens it also closes, and there is nothing to trim.
-/

namespace InterfaceFile

/-- What is open inside a raw text, places aside. -/
structure Shape where
  /-- The number of open brackets. -/
  depth : Nat := 0
  /-- The quote of an open literal, and whether the last character was an escaping backslash. -/
  literal : Option (Char × Bool) := none
  deriving DecidableEq, Repr

namespace Shape

/-- What is open after one more character. -/
def next (s : Shape) (c : Char) : Shape :=
  match s.literal with
  | some (quote, escaped) =>
    if escaped then { s with literal := some (quote, false) }
    else if c = '\\' then { s with literal := some (quote, true) }
    else if c = quote then { s with literal := none }
    else s
  | none =>
    if isOpener c then { s with depth := s.depth + 1 }
    else if isCloser c then { s with depth := s.depth - 1 }
    else if isQuote c then { s with literal := some (c, false) }
    else s

/-- Does the text end before the character? -/
def stopsAt (s : Shape) (stop : Char → Bool) (c : Char) : Bool :=
  s.literal.isNone && s.depth = 0 && (stop c || isCloser c)

/-- What is open after a text; nothing if the text stops before its end. -/
def scan (stop : Char → Bool) : Shape → List Char → Option Shape
  | s, [] => some s
  | s, c :: rest => if s.stopsAt stop c then none else scan stop (s.next c) rest

theorem scan_append (stop : Char → Bool) (s : Shape) (v w : List Char) :
    scan stop s (v ++ w) = (scan stop s v).bind fun t => scan stop t w := by
  induction v generalizing s with
  | nil => rfl
  | cons c v ih =>
    rw [List.cons_append, scan, scan, ih]
    split <;> rfl

/-- Fewer stop characters stop less. -/
theorem scan_mono {stop stop' : Char → Bool} (sub : ∀ c, stop' c = true → stop c = true)
    {s t : Shape} {w : List Char} (h : scan stop s w = some t) : scan stop' s w = some t := by
  induction w generalizing s with
  | nil => exact h
  | cons c w ih =>
    rw [scan] at h ⊢
    split at h
    · cases h
    · next goes =>
      rw [if_neg]
      · exact ih h
      · intro stops
        refine goes ?_
        simp only [stopsAt, Bool.and_eq_true, Bool.or_eq_true] at stops ⊢
        exact ⟨stops.1, stops.2.imp (sub c) id⟩

/-- A character that means nothing outside literals does not change what is open there. -/
theorem scan_plain {stop : Char → Bool} {c : Char} {d : Nat} (goes : stop c = false)
    (plain : (isOpener c || isCloser c || isQuote c) = false) (w : List Char) :
    scan stop { depth := d } (c :: w) = scan stop { depth := d } w := by
  simp only [Bool.or_eq_false_iff] at plain
  rw [scan]
  simp [stopsAt, next, goes, plain]

end Shape

namespace Nesting

/-- What is open, places aside. -/
def shape (n : Nesting) : Shape :=
  { depth := n.brackets.length, literal := n.literal.map fun l => (l.quote, l.escaped) }

theorem shape_next (n : Nesting) (offset : Nat) (c : Char) :
    (n.next offset c).shape = n.shape.next c := by
  obtain ⟨brackets, literal⟩ := n
  cases literal with
  | none =>
    simp only [next, Shape.next, shape, Option.map_none]
    split
    · rfl
    · split
      · simp
      · split <;> rfl
  | some l =>
    simp only [next, Shape.next, shape, Option.map_some]
    split
    · rfl
    · split
      · rfl
      · split
        · rfl
        · rfl

theorem stopsAt_shape (n : Nesting) (stop : Char → Bool) (c : Char) :
    n.shape.stopsAt stop c = n.stopsAt stop c := by
  obtain ⟨brackets, literal⟩ := n
  cases literal <;> cases brackets <;> simp [shape, stopsAt, Shape.stopsAt]

theorem openError?_eq_none {n : Nesting} (offset : Nat) :
    n.openError? offset = none ↔ n.shape = {} := by
  obtain ⟨brackets, literal⟩ := n
  cases literal <;> cases brackets <;> simp [openError?, shape]

end Nesting

/-- Taking raw text goes through a text that does not stop it. -/
theorem takeRaw_append {stop : Char → Bool} {n : Nesting} {s : Shape} {r : List Char}
    (h : n.shape.scan stop r = some s) (taken : List Char) (pos : Position) (rest : List Char) :
    ∃ n' : Nesting, n'.shape = s ∧ takeRaw stop n taken pos (r ++ rest) =
      takeRaw stop n' (r.reverse ++ taken) (pos.after r) rest := by
  induction r generalizing n taken pos with
  | nil => exact ⟨n, Option.some.inj h, rfl⟩
  | cons c r ih =>
    rw [Shape.scan, Nesting.stopsAt_shape] at h
    split at h
    · cases h
    · next goes =>
      rw [← Nesting.shape_next n pos.offset] at h
      obtain ⟨n', shape, eq⟩ := ih h (c :: taken) (pos.step c)
      refine ⟨n', shape, ?_⟩
      rw [List.cons_append, takeRaw, if_neg goes, eq]
      simp

/-- What raw text that is taken looks like: nothing stops it, and it closes what it opens. -/
theorem scan_of_takeRaw {stop : Char → Bool} {n : Nesting} {taken text more rest : List Char}
    {pos pos' : Position}
    (h : takeRaw stop n taken pos text = .ok (taken.reverse ++ more, rest, pos')) :
    n.shape.scan stop more = some {} := by
  induction text generalizing n taken pos more with
  | nil =>
    rw [takeRaw] at h
    split at h
    · cases h
    · next closed =>
      obtain rfl : more = [] := by
        have := congrArg Prod.fst (Except.ok.inj h)
        simpa using this.symm
      rw [Shape.scan, (Nesting.openError?_eq_none _).1 closed]
  | cons c text ih =>
    rw [takeRaw] at h
    split at h
    · next stops =>
      obtain rfl : more = [] := by
        have := congrArg Prod.fst (Except.ok.inj h)
        simpa using this.symm
      rw [Shape.scan]
      obtain ⟨brackets, literal⟩ := n
      simp only [Nesting.stopsAt, Bool.and_eq_true, List.isEmpty_iff, Option.isNone_iff_eq_none]
        at stops
      obtain ⟨⟨rfl, rfl⟩, -⟩ := stops
      rfl
    · next goes =>
      obtain ⟨more', read, -, -⟩ := takeRaw_split h
      obtain rfl : more = c :: more' := by simpa using read
      rw [Shape.scan, Nesting.stopsAt_shape, if_neg goes, ← Nesting.shape_next n pos.offset]
      rw [List.append_cons, ← List.reverse_cons] at h
      exact ih h

/-! ## Trimming -/

namespace Text

/-- There is no white space at either end. -/
def Trimmed (cs : List Char) : Prop :=
  Stops isBlank cs ∧ Stops isBlank cs.reverse

instance (cs : List Char) : Decidable (Trimmed cs) :=
  inferInstanceAs (Decidable (_ ∧ _))

theorem trimmed_of_forall {cs : List Char} (h : ∀ c ∈ cs, isBlank c = false) : Trimmed cs :=
  ⟨fun c first => h c (List.mem_of_mem_head? first),
    fun c last => h c (List.mem_reverse.1 (List.mem_of_mem_head? last))⟩

theorem Trimmed.trim_eq {cs : List Char} (h : Trimmed cs) : trim cs = cs := by
  rw [trim, h.1.dropWhile_eq, h.2.dropWhile_eq, List.reverse_reverse]

/-- What trimming takes away at the end. -/
theorem trim_split (cs : List Char) : ∃ blank, (∀ c ∈ blank, isBlank c = true) ∧
    cs.dropWhile isBlank = trim cs ++ blank := by
  refine ⟨((cs.dropWhile isBlank).reverse.takeWhile isBlank).reverse, ?_, ?_⟩
  · intro c member
    exact List.all_eq_true.1 List.all_takeWhile c (List.mem_reverse.1 member)
  · rw [trim, ← List.reverse_append, List.takeWhile_append_dropWhile, List.reverse_reverse]

theorem trimmed_trim (cs : List Char) : Trimmed (trim cs) := by
  refine ⟨?_, ?_⟩
  · have front := Stops.dropWhile isBlank cs
    obtain ⟨blank, -, split⟩ := trim_split cs
    cases kept : trim cs with
    | nil => exact .nil
    | cons c rest =>
      rw [split, kept] at front
      simpa using front
  · rw [trim, List.reverse_reverse]
    exact Stops.dropWhile _ _

/-- White space around a trimmed text is trimmed away. -/
theorem Trimmed.trim_append {cs : List Char} (h : Trimmed cs) (nonempty : cs ≠ [])
    {before after : List Char} (blank : ∀ c ∈ before, isBlank c = true)
    (blank' : ∀ c ∈ after, isBlank c = true) : trim (before ++ (cs ++ after)) = cs := by
  have reversed : Stops isBlank (cs.reverse) := h.2
  rw [trim, (h.1.append nonempty).dropWhile_append blank, List.reverse_append,
    reversed.dropWhile_append (by simpa using blank'), List.reverse_reverse]

theorem trim_of_blank {cs : List Char} (blank : ∀ c ∈ cs, isBlank c = true) : trim cs = [] := by
  have none : cs.dropWhile isBlank = [] := by
    have := Stops.nil.dropWhile_append (p := isBlank) blank
    rwa [List.append_nil] at this
  rw [trim, none]
  rfl

/-- White space at the end is trimmed away. -/
theorem trim_append_blank {blank : List Char} (all : ∀ c ∈ blank, isBlank c = true)
    (cs : List Char) : trim (cs ++ blank) = trim cs := by
  by_cases none : cs.dropWhile isBlank = []
  · have allBlank : ∀ c ∈ cs, isBlank c = true := by
      have whole := List.takeWhile_append_dropWhile (p := isBlank) (l := cs)
      rw [none, List.append_nil] at whole
      rw [← whole]
      exact List.all_eq_true.1 List.all_takeWhile
    rw [trim_of_blank allBlank, trim_of_blank]
    intro c member
    rcases List.mem_append.1 member with first | last
    · exact allBlank c first
    · exact all c last
  · rw [trim, trim, List.dropWhile_append, if_neg (by simpa using none), List.reverse_append,
      List.dropWhile_append_of_pos (by simpa using all)]

end Text

/-! ## Clean text -/

/-- A text that raw text with the given stop characters is taken up to, and no further. -/
def Clean (stop : Char → Bool) (s : String) : Prop :=
  s.toList ≠ [] ∧ Text.Trimmed s.toList ∧ Shape.scan stop {} s.toList = some {}

instance (stop : Char → Bool) (s : String) : Decidable (Clean stop s) :=
  inferInstanceAs (Decidable (_ ∧ _ ∧ _))

namespace Clean

variable {stop stop' : Char → Bool} {s : String}

theorem mono (h : Clean stop s) (sub : ∀ c, stop' c = true → stop c = true) : Clean stop' s :=
  ⟨h.1, h.2.1, Shape.scan_mono sub h.2.2⟩

theorem ne_empty (h : Clean stop s) : s ≠ "" := by
  rintro rfl
  exact h.1 rfl

/-- A clean text begins with something to read, whatever comes after it. -/
theorem stops_blank (h : Clean stop s) (rest : List Char) : Stops Text.isBlank (s.toList ++ rest) :=
  h.2.1.1.append h.1

/-- Nor does it begin with what ends raw text. -/
theorem stops_end (h : Clean stop s) (rest : List Char) :
    Stops (fun c => stop c || isCloser c) (s.toList ++ rest) := by
  obtain ⟨nonempty, -, scan⟩ := h
  cases text : s.toList with
  | nil => exact absurd text nonempty
  | cons c cs =>
    rw [text, Shape.scan] at scan
    split at scan
    · cases scan
    · next goes =>
      simp only [Shape.stopsAt, Bool.and_eq_true, Bool.or_eq_true, not_and, not_or] at goes
      simpa using goes (by simp)

theorem stops_stop (h : Clean stop s) (rest : List Char) : Stops stop (s.toList ++ rest) :=
  (h.stops_end rest).mono fun _ stops => by rw [stops, Bool.true_or]

theorem stops_closer (h : Clean stop s) (rest : List Char) : Stops isCloser (s.toList ++ rest) :=
  (h.stops_end rest).mono fun _ closes => by rw [closes, Bool.or_true]

end Clean

theorem Text.isBlank_of_isLineSpace {c : Char} (h : isLineSpace c = true) :
    Text.isBlank c = true := by
  simp only [isLineSpace, Bool.or_eq_true, decide_eq_true_eq] at h
  rcases h with (rfl | rfl) | rfl <;> decide

theorem Stops.lineSpace {x : List Char} (h : Stops Text.isBlank x) : Stops isLineSpace x :=
  h.mono fun _ => Text.isBlank_of_isLineSpace

namespace Reader

variable {stop : Char → Bool} {x : List Char}

/-- The text ends, or its first character ends raw text. -/
def EndsRaw (stop : Char → Bool) (x : List Char) : Prop :=
  Stops (fun c => !(stop c || isCloser c)) x

theorem reads_rawText {r : List Char} (scan : Shape.scan stop {} r = some {})
    (ends : EndsRaw stop x) :
    Reads (rawText stop) (r ++ x) x (· = String.ofList (Text.trim r)) := by
  intro c start
  refine ⟨_, c.moveOver r x, ?_, rfl, rfl⟩
  obtain ⟨n, shape, eq⟩ := takeRaw_append (n := {}) scan [] c.pos x
  obtain ⟨pos', taken⟩ : ∃ pos', takeRaw stop {} [] c.pos (r ++ x) = .ok (r, x, pos') := by
    refine ⟨c.pos.after r, ?_⟩
    rw [eq]
    cases x with
    | nil =>
      rw [takeRaw, (Nesting.openError?_eq_none _).2 shape]
      simp
    | cons d x =>
      have stops : n.stopsAt stop d = true := by
        rw [← Nesting.stopsAt_shape, shape]
        have holds := Stops.cons_iff.1 ends
        simp only [Bool.not_eq_false'] at holds
        simp [Shape.stopsAt, holds]
      rw [takeRaw, if_pos stops]
      simp
  rw [rawText, start, taken]

/-- A clean text with spaces around it. -/
theorem reads_rawText_spaced {s : String} (clean : Clean stop s) {before after : List Char}
    (front : ∀ c ∈ before, c = ' ') (back : ∀ c ∈ after, c = ' ') (space : stop ' ' = false)
    (ends : EndsRaw stop x) :
    Reads (rawText stop) (before ++ (s.toList ++ after) ++ x) x (· = s) := by
  have spaces : ∀ w : List Char, (∀ c ∈ w, c = ' ') → Shape.scan stop {} w = some {} := by
    intro w all
    induction w with
    | nil => rfl
    | cons c w ih =>
      obtain rfl : c = ' ' := all c List.mem_cons_self
      exact (Shape.scan_plain space rfl w).trans
        (ih fun c member => all c (List.mem_cons_of_mem _ member))
  have blank : ∀ w : List Char, (∀ c ∈ w, c = ' ') → ∀ c ∈ w, Text.isBlank c = true := by
    intro w all c member
    rw [all c member]
    decide
  have scan : Shape.scan stop {} (before ++ (s.toList ++ after)) = some {} := by
    rw [Shape.scan_append, spaces before front, Option.bind_some, Shape.scan_append, clean.2.2,
      Option.bind_some, spaces after back]
  refine (reads_rawText scan ends).mono fun text same => ?_
  rw [same, clean.2.1.trim_append clean.1 (blank before front) (blank after back),
    String.ofList_toList]

theorem reads_rawText_clean {s : String} (clean : Clean stop s) (ends : EndsRaw stop x) :
    Reads (rawText stop) (s.toList ++ x) x (· = s) :=
  (reads_rawText clean.2.2 ends).mono fun text same => by
    rw [same, clean.2.1.trim_eq, String.ofList_toList]

theorem Reads.someText {y : List Char} {s : String} {expected : Expected}
    (h : Reads (rawText stop) x y (· = s)) (nonempty : s ≠ "") :
    Reads (someText stop expected) x y (· = s) := by
  refine h.followedBy ?_
  rw [if_neg nonempty]
  exact reads_pure rfl

theorem reads_someText {s : String} {expected : Expected} (clean : Clean stop s)
    (ends : EndsRaw stop x) : Reads (someText stop expected) (s.toList ++ x) x (· = s) :=
  (reads_rawText_clean clean ends).someText clean.ne_empty

theorem reads_someText_space {s : String} {expected : Expected} (clean : Clean stop s)
    (space : stop ' ' = false) (ends : EndsRaw stop x) :
    Reads (someText stop expected) (s.toList ++ ' ' :: x) x (· = s) := by
  have read : Reads (rawText stop) ([] ++ (s.toList ++ [' ']) ++ x) x (· = s) :=
    reads_rawText_spaced clean (by simp) (by simp) space ends
  rw [List.nil_append, List.append_assoc] at read
  exact Reads.someText read clean.ne_empty

end Reader

end InterfaceFile
