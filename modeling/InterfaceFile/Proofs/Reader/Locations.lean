import InterfaceFile.Proofs.Bytes.TreeShape
import InterfaceFile.Proofs.Reader.Between

/-!
# Locations of the nodes of a tree that is read

Every node stands where its location says: from the place at one byte offset of the source to the place at
another. The bodies of a tree are rows of such pieces, one after the other, each inside the piece of its
scope.
-/

namespace InterfaceFile

open String (utf8Len utf8Len_append utf8Len_toList)

variable {t : Tree} {b c d e o s : Cursor}

/-! ## Rows of nodes -/

namespace Tree

/-- The nodes stand one after the other between `b` and `d`. -/
def Row (t : Tree) (b d : Cursor) : List NodeId → Prop
  | [] => b.Reaches d
  | id :: rest => ∃ s e, b.Reaches s ∧ (t.node id).Spans s e ∧ t.Row e d rest

variable {ids : List NodeId} {id : NodeId}

theorem Row.reaches (h : t.Row b d ids) : b.Reaches d := by
  induction ids generalizing b with
  | nil => exact h
  | cons first rest ih =>
    obtain ⟨s, e, before, spans, others⟩ := h
    exact (before.trans spans.forward).trans (ih others)

theorem Row.of_mem (h : t.Row b d ids) (member : id ∈ ids) :
    ∃ s e, b.Reaches s ∧ (t.node id).Spans s e ∧ e.Reaches d := by
  induction ids generalizing b with
  | nil => cases member
  | cons first rest ih =>
    obtain ⟨s, e, before, spans, others⟩ := h
    rcases List.mem_cons.1 member with rfl | later
    · exact ⟨s, e, before, spans, others.reaches⟩
    · obtain ⟨s', e', after, inside⟩ := ih others later
      exact ⟨s', e', (before.trans spans.forward).trans after, inside⟩

theorem Row.back (h : t.Row c d ids) (k : b.Reaches c) : t.Row b d ids := by
  cases ids with
  | nil => exact k.trans h
  | cons first rest =>
    obtain ⟨s, e, before, inside⟩ := h
    exact ⟨s, e, k.trans before, inside⟩

/-- Each node of a row ends before the later ones begin. -/
theorem Row.pairwise (h : t.Row b d ids) : ids.Pairwise fun i j =>
    ∃ s e s' e', (t.node i).Spans s e ∧ (t.node j).Spans s' e' ∧ e.Reaches s' := by
  induction ids generalizing b with
  | nil => exact .nil
  | cons first rest ih =>
    obtain ⟨s, e, -, spans, others⟩ := h
    refine .cons (fun later member => ?_) (ih others)
    obtain ⟨s', e', after, spans', -⟩ := others.of_mem member
    exact ⟨s, e, s', e', spans, spans', after⟩

/-- What a slot holds: a node that stands in the text read since `o`, with its body inside it. -/
def PlacedAt (t : Tree) (o : Cursor) (i : NodeId) : Prop :=
  ∃ s e, o.Reaches s ∧ (t.node i).Spans s e ∧ t.Row s e (t.body i)

end Tree

namespace Outline

/-- The nodes of statements that are laid out stand where the statements do. -/
theorem BetweenAll.row {next : Nat} {parent : Option NodeId} {os : List Outline}
    (h : BetweenAll b d os) (laid : LaidOutAll t.slot next parent os) : t.Row b d (numbers next os) := by
  induction os generalizing next b with
  | nil => exact h
  | cons first rest ih =>
    obtain ⟨node, body⟩ := first
    obtain ⟨m, ⟨s, e, before, spans, -, after⟩, others⟩ := h
    have own : t.node next = node := by rw [Tree.node, laid.1.1]
    exact ⟨s, e, before, own ▸ spans, (ih others laid.2).back after⟩

mutual

theorem Between.placedAt {id : Nat} {parent : Option NodeId} :
    ∀ {statement : Outline} {b d : Cursor}, statement.LaidOut t.slot id parent →
      statement.Between b d → o.Reaches b → ∀ i : Nat, id ≤ i → i < id + statement.size → t.PlacedAt o i
  | mk node body, b, d, laid, ⟨s, e, before, spans, inside, after⟩, reached, i, low, high => by
    have own : t.node id = node := by rw [Tree.node, laid.1]
    have listed : t.body id = numbers (id + 1) body := by rw [Tree.body, laid.1]
    rcases Nat.eq_or_lt_of_le low with rfl | later
    · exact ⟨s, e, reached.trans before, own ▸ spans, listed ▸ inside.row laid.2⟩
    · rw [size] at high
      exact BetweenAll.placedAt laid.2 inside (reached.trans before) i later (by omega)

theorem BetweenAll.placedAt {next : Nat} {parent : Option NodeId} :
    ∀ {os : List Outline} {b d : Cursor}, LaidOutAll t.slot next parent os →
      BetweenAll b d os → o.Reaches b → ∀ i : Nat, next ≤ i → i < next + sizeAll os → t.PlacedAt o i
  | [], b, d, _, _, _, i, low, high => by
    rw [sizeAll] at high
    omega
  | first :: rest, b, d, laid, ⟨m, one, others⟩, reached, i, low, high => by
    rw [sizeAll] at high
    by_cases here : i < next + first.size
    · exact Between.placedAt laid.1 one reached i low here
    · exact BetweenAll.placedAt laid.2 others (reached.trans one.reaches) i (by omega) (by omega)

end

end Outline

/-! ## Locations -/

/-- The lines and columns fit in 32 bits. -/
def Location.Fits (l : Location) : Prop :=
  (l.start.line < 2 ^ 32 ∧ l.start.column < 2 ^ 32) ∧ l.stop.line < 2 ^ 32 ∧ l.stop.column < 2 ^ 32

/-- The location of the bytes from `start` to `stop` of a source: it begins at the place at the one offset
    and ends at the place at the other. -/
structure Location.Covers (l : Location) (source : String) (file : Option String) (start stop : Nat) :
    Prop where
  file : l.file = file
  forwards : start ≤ stop
  inside : stop ≤ source.utf8ByteSize
  start : placeAt? source start = some l.start
  stop : placeAt? source stop = some l.stop

section Sources

variable {file : Option String} {source : String}

theorem Node.Spans.covers {n : Node} (h : n.Spans s e)
    (reached : (Cursor.ofText file source.toList).Reaches s) :
    Location.Covers ⟨s.file, s.pos.place, e.pos.place⟩ source file s.pos.offset e.pos.offset where
  file := reached.file
  forwards := h.forward.offset_mono
  inside := (reached.trans h.forward).offset_le
  start := reached.placeAt?
  stop := (reached.trans h.forward).placeAt?

/-- A source of less than 2³² bytes has less than 2³² characters. -/
theorem Cursor.length_lt_of_split (short : source.utf8ByteSize < 2 ^ 32) {front rest : List Char}
    (whole : source.toList = front ++ rest) : front.length + rest.length < 2 ^ 32 := by
  have := length_le_utf8Len source.toList
  rw [utf8Len_toList, whole, List.length_append] at this
  omega

/-- The line and the column of a character fit in 32 bits. -/
theorem Cursor.Reaches.place_lt (reached : (Cursor.ofText file source.toList).Reaches s)
    (short : source.utf8ByteSize < 2 ^ 32) {ch : Char} {more : List Char} (head : s.rest = ch :: more) :
    s.pos.place.line < 2 ^ 32 ∧ s.pos.place.column < 2 ^ 32 := by
  obtain ⟨front, whole, start⟩ := reached.front
  have small := length_lt_of_split short whole
  rw [head, List.length_cons] at small
  have := Place.line_afterText_le front
  have := Place.column_afterText_le front
  rw [start, Position.place_after_start]
  omega

/-- So do those of the end of a text that begins with a character other than a line end: not every
    character before its end is a line end. -/
theorem Cursor.Reaches.place_lt_of_text (reached : (Cursor.ofText file source.toList).Reaches s)
    (short : source.utf8ByteSize < 2 ^ 32) {ch : Char} {more : List Char} (head : s.rest = ch :: more)
    (text : ch ≠ '\n') (forward : s.Reaches e) :
    e.pos.place.line < 2 ^ 32 ∧ e.pos.place.column < 2 ^ 32 := by
  obtain ⟨middle, read, eq⟩ := forward
  cases middle with
  | nil =>
    have same : e.pos = s.pos := by
      rw [eq]
      rfl
    rw [same]
    exact reached.place_lt short head
  | cons first middle =>
    obtain rfl : first = ch := by
      rw [head] at read
      exact (List.cons_eq_cons.1 read).1.symm
    obtain ⟨front, whole, start⟩ := reached.front
    have stop : e.pos = Position.after {} (front ++ first :: middle) := by
      rw [eq, Cursor.moveOver, start, Position.after_append]
    have small := length_lt_of_split short (whole.trans ((congrArg (front ++ ·) read).trans
      (List.append_assoc ..).symm))
    have lines : (front ++ first :: middle).count '\n' < (front ++ first :: middle).length := by
      have := List.count_le_length (a := '\n') (l := front)
      have := List.count_le_length (a := '\n') (l := middle)
      rw [List.count_append, List.count_cons_of_ne text, List.length_append, List.length_cons]
      omega
    have := Place.column_afterText_le (front ++ first :: middle)
    rw [stop, Position.place_after_start]
    refine ⟨?_, by omega⟩
    change 1 + (front ++ first :: middle).count '\n' < 2 ^ 32
    omega

/-- A node begins at a character and, if that is a line end, ends there too. -/
theorem Node.Spans.fits {n : Node} (h : n.Spans s e)
    (reached : (Cursor.ofText file source.toList).Reaches s) (short : source.utf8ByteSize < 2 ^ 32) :
    Location.Fits ⟨s.file, s.pos.place, e.pos.place⟩ := by
  obtain ⟨ch, more, head, line⟩ := h.head
  have starts := reached.place_lt short head
  refine ⟨starts, ?_⟩
  by_cases newline : ch = '\n'
  · rw [line newline]
    exact starts
  · exact reached.place_lt_of_text short head newline h.forward

end Sources

namespace Tree

/-- The locations of a tree that was read from `source`. -/
structure Located (t : Tree) (source : String) (file : Option String) : Prop where
  /-- Every attached node has a location in the source, which does not end before it begins. -/
  located : ∀ id scope, t.parent id = some scope → ∃ l start stop, (t.node id).loc = some l ∧
    l.Covers source file start stop ∧ l.start ≤ l.stop ∧ l.Fits
  /-- It lies within the location of the scope around the node. -/
  nested : ∀ id scope, t.parent id = some scope → scope ≠ root → ∃ inner outer,
    (t.node id).loc = some inner ∧ (t.node scope).loc = some outer ∧
      outer.start ≤ inner.start ∧ inner.stop ≤ outer.stop
  /-- Each node of a body ends no later than the later ones begin. -/
  ordered : ∀ scope, (t.body scope).Pairwise fun i j => ∃ one other,
    (t.node i).loc = some one ∧ (t.node j).loc = some other ∧ one.stop ≤ other.start

/-- A tree of statements that stand one after the other in a source has its nodes where they stand. -/
theorem located_ofOutlines {source : String} {file level : Option String} {body : List Outline}
    (short : source.utf8ByteSize < 2 ^ 32)
    (placed : Outline.BetweenAll (.ofText file source.toList) d body) :
    (ofOutlines level body).Located source file := by
  have linked := linked_ofOutlines level body
  have laid := laidOut_ofOutlines level body
  have size := size_ofOutlines level body
  generalize ofOutlines level body = t at linked laid size
  -- Whatever has a body is the root or a slot of one of the statements.
  have row : ∀ scope : Nat, ∃ s e, (Cursor.ofText file source.toList).Reaches s ∧ t.Row s e (t.body scope) ∧
      (scope ≠ root → t.body scope ≠ [] → (t.node scope).Spans s e) := by
    intro scope
    by_cases top : scope = root
    · subst top
      have listed : t.body root = Outline.numbers 1 body := by rw [Tree.body, laid.1]
      exact ⟨_, d, .refl _, listed ▸ placed.row laid.2, fun other => absurd rfl other⟩
    · by_cases inside : scope < t.size
      · have below : scope < root + 1 + Outline.sizeAll body := by
          rwa [size, Outline.size, Nat.add_comm] at inside
        obtain ⟨s, e, reached, spans, row⟩ := placed.placedAt laid.2 (.refl _) scope
          (Nat.pos_of_ne_zero top) below
        exact ⟨s, e, reached, row, fun _ _ => spans⟩
      · have none := body_of_size_le (Nat.le_of_not_lt inside)
        exact ⟨_, .ofText file source.toList, .refl _, none ▸ Cursor.Reaches.refl _,
          fun _ some => absurd none some⟩
  refine ⟨fun id scope link => ?_, fun id scope link inner => ?_, fun scope => ?_⟩
  · obtain ⟨s, e, reached, inside, -⟩ := row scope
    obtain ⟨s', e', before, spans, -⟩ := inside.of_mem ((linked.parent_iff id scope).1 link)
    exact ⟨_, _, _, spans.loc, spans.covers (reached.trans before), spans.forward.place_le,
      spans.fits (reached.trans before) short⟩
  · have member := (linked.parent_iff id scope).1 link
    obtain ⟨s, e, -, inside, around⟩ := row scope
    obtain ⟨s', e', before, spans, after⟩ := inside.of_mem member
    exact ⟨_, _, spans.loc, (around inner (List.ne_nil_of_mem member)).loc, before.place_le, after.place_le⟩
  · obtain ⟨s, e, -, inside, -⟩ := row scope
    refine inside.pairwise.imp ?_
    rintro i j ⟨s, e, s', e', spans, spans', between⟩
    exact ⟨_, _, spans.loc, spans'.loc, between.place_le⟩

end Tree

/-- The locations of a tree that is read are faithful and nested: every attached node has the location of a
    piece of the source, inside that of its scope and before those of its later siblings. -/
theorem locations_are_faithful {source : String} {file : Option String} {t : Tree}
    (short : source.utf8ByteSize < 2 ^ 32) (read : Tree.parse source file = .ok t) :
    t.Located source file := by
  obtain ⟨d, run⟩ := Reader.run_eq_ok.1 read
  obtain ⟨-, level, body, rfl, placed⟩ := Reader.points_file.result t d run
  exact Tree.located_ofOutlines short placed

theorem locations_are_faithful_nestedFile :
    ∃ t, Tree.parse (nestedFile.render { foldEmptyScopes := true }) none = .ok t ∧
      t.Located (nestedFile.render { foldEmptyScopes := true }) none := by
  have printable : nestedFile.Printable { foldEmptyScopes := true } := by decide
  obtain ⟨t, read, -, -⟩ := Tree.parse_render printable rfl rfl none
  exact ⟨t, read, locations_are_faithful (by decide +kernel) read⟩

end InterfaceFile
