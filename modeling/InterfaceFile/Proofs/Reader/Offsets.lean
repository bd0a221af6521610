import InterfaceFile.Reader.Basic
import Mathlib.Data.List.Induction
import Mathlib.Data.String.Basic

/-!
# Bytes, lines and columns of a text

A position that a reader comes to is that of the characters it has read: their bytes, the lines that
they end and the characters since the last line end. Positions further on in the text are later in
reading order, and two of them, in order, enclose a piece of the text.
-/

namespace InterfaceFile

open String (utf8Len utf8Len_append utf8Len_toList utf8Len_le_of_prefix)

/-! ## Reading order -/

namespace Place

/-- Reading order, with each place no later than itself. -/
instance : LE Place where
  le a b := b.before a = false

theorem le_def {a b : Place} : a ≤ b ↔ b.before a = false := Iff.rfl

instance (a b : Place) : Decidable (a ≤ b) :=
  decidable_of_iff (b.before a = false) le_def.symm

theorem le_iff {a b : Place} :
    a ≤ b ↔ a.line < b.line ∨ a.line = b.line ∧ a.column ≤ b.column := by
  rw [le_def, before, Bool.or_eq_false_iff, Bool.and_eq_false_iff]
  simp only [decide_eq_false_iff_not]
  omega

theorem le_refl (a : Place) : a ≤ a :=
  le_iff.2 (.inr ⟨rfl, Nat.le_refl _⟩)

theorem le_trans {a b c : Place} (h : a ≤ b) (k : b ≤ c) : a ≤ c := by
  rw [le_iff] at *
  omega

/-- The place after a text that begins in the first column of the first line: one line more than the text
    has line ends, and as many columns as it has characters since the last of them. -/
def afterText (front : List Char) : Place :=
  ⟨1 + front.count '\n', (front.reverse.takeWhile (· ≠ '\n')).length⟩

theorem afterText_concat (front : List Char) (c : Char) :
    afterText (front ++ [c]) =
      if c = '\n' then ⟨(afterText front).line + 1, 0⟩
      else ⟨(afterText front).line, (afterText front).column + 1⟩ := by
  simp only [afterText, List.count_append, List.count_singleton, List.reverse_append,
    List.reverse_singleton, List.singleton_append, List.takeWhile_cons]
  by_cases h : c = '\n' <;> simp [h, Nat.add_assoc]

theorem column_afterText_le (front : List Char) : (afterText front).column ≤ front.length := by
  have := (List.takeWhile_sublist (l := front.reverse) (· ≠ '\n')).length_le
  rwa [List.length_reverse] at this

theorem line_afterText_le (front : List Char) : (afterText front).line ≤ front.length + 1 := by
  have := List.count_le_length (a := '\n') (l := front)
  change 1 + front.count '\n' ≤ front.length + 1
  omega

end Place

namespace Position

theorem place_le_step (p : Position) (c : Char) : p.place ≤ (p.step c).place := by
  rw [Place.le_iff, step]
  by_cases h : c = '\n' <;> simp [h]

theorem place_le_after (p : Position) (cs : List Char) : p.place ≤ (p.after cs).place := by
  induction cs generalizing p with
  | nil => exact Place.le_refl _
  | cons c cs ih => exact Place.le_trans (p.place_le_step c) (ih _)

/-- Every character leads to another place. -/
theorem place_after_cons_ne (p : Position) (c : Char) (cs : List Char) :
    (p.after (c :: cs)).place ≠ p.place := by
  intro same
  have late : (p.step c).place ≤ p.place := by
    rw [← same, after_cons]
    exact place_le_after _ cs
  rw [Place.le_iff, step] at late
  by_cases h : c = '\n' <;> simp [h] at late

@[simp]
theorem offset_after (p : Position) (cs : List Char) :
    (p.after cs).offset = p.offset + utf8Len cs := by
  induction cs generalizing p with
  | nil => rfl
  | cons c cs ih =>
    rw [after_cons, ih, String.utf8Len_cons, Nat.add_comm (utf8Len cs), ← Nat.add_assoc]
    rfl

/-- The place is counted along the way, and it is the place after the whole text. -/
theorem place_after_start (front : List Char) :
    (({} : Position).after front).place = Place.afterText front := by
  induction front using List.reverseRecOn with
  | nil => rfl
  | append_singleton front c ih =>
    rw [after_append, after_cons, after_nil, step, ih, Place.afterText_concat]

end Position

theorem length_le_utf8Len (cs : List Char) : cs.length ≤ utf8Len cs := by
  induction cs with
  | nil => exact Nat.le_refl _
  | cons c cs ih =>
    have := c.utf8Size_pos
    rw [List.length_cons, String.utf8Len_cons]
    omega

/-! ## Slices -/

namespace Span

theorem splitBytes?_utf8Len (front back : List Char) :
    splitBytes? (utf8Len front) (front ++ back) = some (front, back) := by
  induction front with
  | nil => rw [String.utf8Len_nil, splitBytes?, List.nil_append]
  | cons c front ih =>
    obtain ⟨n, size⟩ : ∃ n, utf8Len (c :: front) = n + 1 := by
      refine Nat.exists_eq_add_one_of_ne_zero fun zero => ?_
      exact List.cons_ne_nil c front (String.utf8Len_eq_zero.1 zero)
    have left : n + 1 - c.utf8Size = utf8Len front := by
      rw [← size, String.utf8Len_cons, Nat.add_sub_cancel]
    have fits : c.utf8Size ≤ n + 1 := by
      rw [← size, String.utf8Len_cons]
      exact Nat.le_add_left _ _
    rw [size, List.cons_append, splitBytes?, if_pos fits, left, ih, Option.map_some]

/-- A text is split after `n` bytes where its first characters have that many bytes. -/
theorem splitBytes?_eq_some {n : Nat} {cs front back : List Char} :
    splitBytes? n cs = some (front, back) ↔ cs = front ++ back ∧ n = utf8Len front := by
  constructor
  · intro split
    fun_induction splitBytes? n cs generalizing front back with
    | case1 cs =>
      cases split
      exact ⟨rfl, rfl⟩
    | case2 => cases split
    | case3 n c cs fits ih =>
      obtain ⟨⟨front', back'⟩, inner, same⟩ := Option.map_eq_some_iff.1 split
      cases same
      obtain ⟨rfl, bytes⟩ := ih inner
      refine ⟨rfl, ?_⟩
      rw [String.utf8Len_cons, ← bytes]
      omega
    | case4 => cases split
  · rintro ⟨rfl, rfl⟩
    exact splitBytes?_utf8Len front back

/-- The slices of a text are its pieces. -/
theorem slice?_eq_some {s : Span} {text piece : String} :
    s.slice? text = some piece ↔ ∃ before after, text.toList = before ++ piece.toList ++ after ∧
      s = ⟨utf8Len before, utf8Len (before ++ piece.toList)⟩ := by
  rw [slice?]
  constructor
  · intro cut
    split at cut
    · cases cut
    · next forwards =>
      simp only [Option.bind_eq_bind, Option.bind_eq_some_iff, Option.pure_def, Option.some.injEq,
        Prod.exists] at cut
      obtain ⟨before, back, first, middle, after, second, rfl⟩ := cut
      obtain ⟨whole, start⟩ := splitBytes?_eq_some.1 first
      obtain ⟨rfl, length⟩ := splitBytes?_eq_some.1 second
      rw [Span.length] at length
      refine ⟨before, after, by simp [whole], ?_⟩
      rw [String.toList_ofList, utf8Len_append, Span.mk.injEq]
      omega
  · rintro ⟨before, after, whole, rfl⟩
    have forwards : ¬ utf8Len (before ++ piece.toList) < utf8Len before := by
      rw [utf8Len_append]
      omega
    have length : Span.length ⟨utf8Len before, utf8Len (before ++ piece.toList)⟩ =
        utf8Len piece.toList := by
      rw [Span.length, utf8Len_append, Nat.add_sub_cancel_left]
    rw [if_neg forwards, length, whole, List.append_assoc]
    simp only [splitBytes?_utf8Len, Option.bind_eq_bind, Option.bind_some, Option.pure_def,
      String.ofList_toList]

theorem slice?_of_append {text : String} {before middle after : List Char}
    (whole : text.toList = before ++ middle ++ after) :
    slice? ⟨utf8Len before, utf8Len (before ++ middle)⟩ text = some (String.ofList middle) :=
  slice?_eq_some.2 ⟨before, after, by rw [String.toList_ofList, whole], by rw [String.toList_ofList]⟩

/-- The slice up to the end of a beginning of the text. -/
theorem slice?_upTo {text : String} {front back : List Char} (whole : text.toList = front ++ back) :
    slice? ⟨0, utf8Len front⟩ text = some (String.ofList front) := by
  have pieces : text.toList = [] ++ front ++ back := whole
  exact slice?_of_append pieces

/-- The slice from the end of a beginning of the text on. -/
theorem slice?_from {text : String} {front back : List Char} (whole : text.toList = front ++ back) :
    slice? ⟨utf8Len front, text.utf8ByteSize⟩ text = some (String.ofList back) := by
  have pieces : text.toList = front ++ back ++ [] := by rw [whole, List.append_nil]
  rw [← utf8Len_toList, whole]
  exact slice?_of_append pieces

/-- The span does not end before it starts, and both ends stand at the edge of a character of the text or
    at its end. -/
structure Inside (s : Span) (text : String) : Prop where
  forwards : s.start ≤ s.stop
  start : (⟨s.start⟩ : String.Pos.Raw).IsValid text
  stop : (⟨s.stop⟩ : String.Pos.Raw).IsValid text

theorem isValid_iff {text : String} {n : Nat} : (⟨n⟩ : String.Pos.Raw).IsValid text ↔
    ∃ front back, text.toList = front ++ back ∧ n = utf8Len front := by
  rw [String.Pos.Raw.isValid_iff_exists_append]
  constructor
  · rintro ⟨front, back, rfl, same⟩
    refine ⟨front.toList, back.toList, String.toList_append, ?_⟩
    rw [utf8Len_toList]
    exact congrArg String.Pos.Raw.byteIdx same
  · rintro ⟨front, back, whole, rfl⟩
    refine ⟨String.ofList front, String.ofList back, ?_, ?_⟩
    · rw [← String.ofList_append, ← whole, String.ofList_toList]
    · rw [String.rawEndPos_ofList]

theorem Inside.stop_le {s : Span} {text : String} (h : s.Inside text) :
    s.stop ≤ text.utf8ByteSize :=
  h.stop.le_utf8ByteSize

/-- There is a slice exactly inside the text. -/
theorem isSome_slice? {s : Span} {text : String} : (s.slice? text).isSome ↔ s.Inside text := by
  rw [Option.isSome_iff_exists]
  constructor
  · rintro ⟨piece, cut⟩
    obtain ⟨before, after, whole, rfl⟩ := slice?_eq_some.1 cut
    refine ⟨?_, isValid_iff.2 ⟨before, piece.toList ++ after, by rw [whole, List.append_assoc], rfl⟩,
      isValid_iff.2 ⟨before ++ piece.toList, after, whole, rfl⟩⟩
    rw [utf8Len_append]
    exact Nat.le_add_right _ _
  · intro inside
    obtain ⟨front, back, whole, start⟩ := isValid_iff.1 inside.start
    obtain ⟨front', back', whole', stop⟩ := isValid_iff.1 inside.stop
    -- Both are beginnings of the text, so the one with fewer bytes is a beginning of the other.
    obtain ⟨middle, rfl⟩ : front <+: front' := by
      have nested := List.prefix_or_prefix_of_prefix ⟨back, whole.symm⟩ ⟨back', whole'.symm⟩
      refine nested.elim id ?_
      rintro ⟨more, rfl⟩
      have := inside.forwards
      rw [utf8Len_append] at start
      obtain rfl : more = [] := String.utf8Len_eq_zero.1 (by omega)
      simp
    refine ⟨String.ofList middle, ?_⟩
    have same : s = ⟨utf8Len front, utf8Len (front ++ middle)⟩ := by rw [← start, ← stop]
    rw [same]
    exact slice?_of_append whole'

end Span

/-- The place at a byte offset of a text, if a character ends or starts there. -/
def placeAt? (text : String) (offset : Nat) : Option Place :=
  (Span.splitBytes? offset text.toList).map fun (front, _) => Place.afterText front

/-! ## Cursors in a text -/

namespace Cursor

variable {b c d o : Cursor}

theorem Reaches.place_le (h : c.Reaches d) : c.pos.place ≤ d.pos.place := by
  obtain ⟨read, -, eq⟩ := h
  rw [eq]
  exact Position.place_le_after _ _

theorem Reaches.file (h : c.Reaches d) : d.file = c.file := by
  obtain ⟨read, -, eq⟩ := h
  rw [eq, moveOver]

/-- A span that begins and ends where the reading from `o` on comes to. -/
def Shows (o : Cursor) (s : Span) : Prop :=
  ∃ b d, o.Reaches b ∧ b.Reaches d ∧ s = b.pos.spanTo d.pos

theorem Reaches.shows (h : o.Reaches b) (k : b.Reaches d) : o.Shows (b.pos.spanTo d.pos) :=
  ⟨b, d, h, k, rfl⟩

theorem Reaches.shows_point (h : o.Reaches c) : o.Shows (.point c.pos.offset) :=
  h.shows (.refl c)

/-- The characters before a cursor, from the start of the text on. -/
theorem Reaches.front {file : Option String} {text : List Char} (h : (ofText file text).Reaches c) :
    ∃ front, text = front ++ c.rest ∧ c.pos = ({} : Position).after front := by
  obtain ⟨front, whole, eq⟩ := h
  refine ⟨front, whole, ?_⟩
  rw [eq]
  rfl

/-- What a reader can show of a text is a piece of it. -/
theorem Shows.inside {file : Option String} {source : String} {s : Span}
    (h : (ofText file source.toList).Shows s) : s.Inside source := by
  obtain ⟨b, d, reached, ⟨middle, read, eq⟩, rfl⟩ := h
  obtain ⟨front, whole, pos⟩ := reached.front
  refine Span.isSome_slice?.1 (Option.isSome_iff_exists.2 ⟨String.ofList middle, ?_⟩)
  rw [read, ← List.append_assoc] at whole
  have same : b.pos.spanTo d.pos = ⟨utf8Len front, utf8Len (front ++ middle)⟩ := by
    rw [eq, moveOver, pos, ← Position.after_append, Position.spanTo]
    simp
  rw [same]
  exact Span.slice?_of_append whole

/-- The place of a cursor is the one at its offset. -/
theorem Reaches.placeAt? {file : Option String} {source : String}
    (h : (ofText file source.toList).Reaches c) :
    placeAt? source c.pos.offset = some c.pos.place := by
  obtain ⟨front, whole, pos⟩ := h.front
  have offset : c.pos.offset = utf8Len front := by
    rw [pos, Position.offset_after, Nat.zero_add]
  rw [InterfaceFile.placeAt?, offset, whole, Span.splitBytes?_utf8Len, pos,
    Position.place_after_start]
  rfl

theorem Reaches.offset_le {file : Option String} {source : String}
    (h : (ofText file source.toList).Reaches c) : c.pos.offset ≤ source.utf8ByteSize := by
  obtain ⟨front, whole, pos⟩ := h.front
  rw [pos, Position.offset_after, Nat.zero_add, ← utf8Len_toList, whole]
  exact utf8Len_le_of_prefix (List.prefix_append _ _)

theorem Reaches.offset_mono (h : c.Reaches d) : c.pos.offset ≤ d.pos.offset := by
  obtain ⟨read, -, eq⟩ := h
  rw [eq, moveOver, Position.offset_after]
  exact Nat.le_add_right _ _

end Cursor

end InterfaceFile
