import InterfaceFile.Proofs.Printer.Layout
import InterfaceFile.Proofs.RoundTrip.ReadArguments
import InterfaceFile.Proofs.RoundTrip.ReadNames

/-!
# Parameter lists are read back

A printed list is a sequence of entries with white space before each of them and comments after
them, on one line or on several. The reader skips white space at every step, so one lemma covers all
layouts.
-/

namespace InterfaceFile

/-- A comment line as it is printed without colours. -/
def commentText (line : String) : List Char :=
  if line.isEmpty then ['#'] else '#' :: ' ' :: line.toList

theorem PrintOptions.toList_commentLine {o : PrintOptions} (plain : o.colorize = false)
    (line : String) : (o.commentLine line).toList = commentText line := by
  rw [commentLine, paint, Style.paint, plain, commentText]
  split <;> simp

/-- A line that is read back as it is: it is one line and does not end with a carriage return. -/
def IsCommentLine (line : String) : Prop :=
  '\n' ∉ line.toList ∧ line.toList.getLast? ≠ some '\r'

theorem Text.dropTrailing_eq {ch : Char} {cs : List Char} (h : cs.getLast? ≠ some ch) :
    dropTrailing ch cs = cs := by
  have stop : Stops (· = ch) cs.reverse := by
    intro c first
    rw [List.head?_reverse] at first
    simp only [decide_eq_false_iff_not]
    rintro rfl
    exact h first
  rw [dropTrailing, stop.dropWhile_eq, List.reverse_reverse]

namespace Reader

variable {x y z : List Char}

/-- A comment is read up to the end of its line, without carriage returns there. -/
theorem reads_remark?_line {line : String} (h : '\n' ∉ line.toList) :
    Reads remark? (commentText line ++ '\n' :: x) ('\n' :: x) fun r => ∃ remark, r = some remark ∧
      remark.comment.text = String.ofList (Text.dropTrailing '\r' line.toList) := by
  have begins : ∃ more, commentText line ++ '\n' :: x = '#' :: more ∧
      Reads (eat ' ') more (line.toList ++ '\n' :: x) fun _ => True := by
    rw [commentText]
    split
    · next empty =>
      rw [String.isEmpty_iff.1 empty]
      exact ⟨'\n' :: x, rfl, (reads_eat_no (.cons rfl)).mono fun _ _ => trivial⟩
    · exact ⟨' ' :: (line.toList ++ '\n' :: x), rfl, (reads_eat ' ').mono fun _ _ => trivial⟩
  obtain ⟨more, text, space⟩ := begins
  rw [text]
  have inLine : ∀ c ∈ line.toList, decide (c ≠ '\n') = true := by
    intro c member
    simp only [decide_eq_true_eq]
    rintro rfl
    exact h member
  have stop : Stops (fun c => decide (c ≠ '\n')) ('\n' :: x) := .cons rfl
  have taken := reads_readWhile (x := line.toList ++ '\n' :: x) (fun c => decide (c ≠ '\n'))
  rw [stop.dropWhile_append inLine, stop.takeWhile_append inLine] at taken
  refine reads_here.bind fun start _ => ?_
  refine (reads_eat '#').followedBy ?_
  refine space.bind fun _ _ => ?_
  refine taken.followedBy ?_
  refine reads_here.bind fun stop _ => ?_
  exact (reads_locate start stop).bind fun loc _ => reads_pure ⟨_, rfl, rfl⟩

theorem reads_remark? {line : String} (h : IsCommentLine line) :
    Reads remark? (commentText line ++ '\n' :: x) ('\n' :: x)
      fun r => ∃ remark, r = some remark ∧ remark.comment.text = line := by
  refine (reads_remark?_line h.1).mono ?_
  rintro _ ⟨remark, rfl, same⟩
  exact ⟨remark, rfl, by rw [same, Text.dropTrailing_eq h.2, String.ofList_toList]⟩

theorem reads_remark?_no (h : Stops (· = '#') x) : Reads remark? x x (· = none) :=
  reads_here.bind fun _ _ => (reads_eat_no h).followedBy (reads_pure rfl)

/-- The line ends here. -/
theorem reads_finishLine : Reads finishLine ('\n' :: x) x (· = none) :=
  (reads_skipSpaces_stay (.cons rfl)).followedBy <|
    (reads_remark?_no (.cons rfl)).followedBy <|
      (reads_atEnd_no (by simp)).followedBy <| (reads_eat '\n').followedBy (reads_pure rfl)

/-! ## Lists -/

/-- The texts are equal but for white space before them. -/
def Alike (x y : List Char) : Prop :=
  x.dropWhile Text.isBlank = y.dropWhile Text.isBlank

/-- `x` has the comment lines, each after white space, and `y` after them. -/
inductive Remarks : List String → List Char → List Char → Prop
  | nil (x : List Char) : Remarks [] x x
  | cons {lead : List Char} {line : String} {lines : List String} {x y : List Char}
      (blank : ∀ c ∈ lead, Text.isBlank c = true) (good : IsCommentLine line)
      (rest : Remarks lines ('\n' :: x) y) :
      Remarks (line :: lines) (lead ++ (commentText line ++ '\n' :: x)) y

/-- What may come after an entry: a comma, the end of the list, a line end or a comment. -/
def EndsEntry (x : List Char) : Prop :=
  (∃ c rest, x = c :: rest ∧ (c = ',' ∨ c = ')' ∨ c = '\n')) ∨ ∃ rest, x = ' ' :: '#' :: rest

/-- A printed entry of a list. -/
structure Item (α : Type) where
  text : List Char
  lines : List String
  /-- What the entry says without its comments. -/
  base : α

/-- `x` has the items as a list, and `y` after them. -/
inductive Listed {α : Type} : List (Item α) → List Char → List Char → Prop
  | nil (x : List Char) : Listed [] x x
  | last (item : Item α) {lead x y : List Char}
      (blank : ∀ c ∈ lead, Text.isBlank c = true) (ends : EndsEntry x)
      (remarks : Remarks item.lines x y) : Listed [item] (lead ++ (item.text ++ x)) y
  | cons (item : Item α) {next : Item α} {rest : List (Item α)} {lead x y z : List Char}
      (blank : ∀ c ∈ lead, Text.isBlank c = true) (remarks : Remarks item.lines x y)
      (later : Listed (next :: rest) y z) :
      Listed (item :: next :: rest) (lead ++ (item.text ++ ',' :: x)) z

/-- A kind of entry as it is seen without locations. -/
structure EntryView (α : Type) where
  kind : EntryKind α
  view : α → α
  note : α → String → α
  view_addComment : ∀ c a, view (kind.addComment c a) = note (view a) c.text

/-- An entry is read from its text, whatever may follow an entry. A space may be read with it. -/
def ReadsItem {α : Type} (v : EntryView α) (item : Item α) : Prop :=
  item.text ≠ [] ∧ Stops (fun c => Text.isBlank c || c = ')' || c = '#') item.text ∧
    ∀ x, EndsEntry x → ∃ y, (y = x ∨ x = ' ' :: y) ∧
      Reads v.kind.read (item.text ++ x) y fun a => v.view a = item.base

section Lists

variable {α : Type} {v : EntryView α} {start : Nat} {x' : List Char}

theorem dropWhile_lead {lead : List Char} (blank : ∀ c ∈ lead, Text.isBlank c = true)
    (stop : Stops Text.isBlank x) : (lead ++ x).dropWhile Text.isBlank = x :=
  stop.dropWhile_append blank

theorem stops_commentText (line : String) (x : List Char) :
    ∃ rest, commentText line ++ x = '#' :: rest := by
  rw [commentText]
  split
  · exact ⟨_, rfl⟩
  · exact ⟨_, rfl⟩

theorem reads_skipBlanks_to (h : x'.dropWhile Text.isBlank = x) : Reads skipBlanks x' x (· = ()) :=
  h ▸ reads_skipBlanks

theorem reads_listStep_close {l : OpenList α} (h : x'.dropWhile Text.isBlank = ')' :: z) :
    Reads (listStep v.kind start l) x' z (· = .done l.entries.reverse) :=
  (reads_skipBlanks_to h).followedBy <| (reads_eat ')').followedBy (reads_pure rfl)

theorem reads_listStep_comma {es : List α} (h : x'.dropWhile Text.isBlank = ',' :: z) :
    Reads (listStep v.kind start { entries := es, needsComma := true }) x' z
      (· = .again { entries := es, needsComma := false }) :=
  (reads_skipBlanks_to h).followedBy <| (reads_eat_no (.cons rfl)).followedBy <|
    (reads_remark?_no (.cons rfl)).followedBy <| (reads_atEnd_no (by simp)).followedBy <|
      (reads_eat ',').followedBy (reads_pure rfl)

theorem reads_listStep_remark {a : α} {es : List α} {b : Bool} {line : String}
    (good : IsCommentLine line) (h : x'.dropWhile Text.isBlank = commentText line ++ '\n' :: z) :
    Reads (listStep v.kind start { entries := a :: es, needsComma := b }) x' ('\n' :: z)
      fun t => ∃ l, t = .again l ∧
        ∃ a', l = { entries := a' :: es, needsComma := b } ∧ v.view a' = v.note (v.view a) line := by
  obtain ⟨more, begins⟩ := stops_commentText line ('\n' :: z)
  refine (reads_skipBlanks_to h).followedBy ?_
  refine (reads_eat_no ?_).followedBy ?_
  · rw [begins]
    exact .cons rfl
  · refine (reads_remark? good).bind fun r holds => ?_
    obtain ⟨remark, rfl, text⟩ := holds
    refine reads_pure ⟨_, rfl, _, rfl, ?_⟩
    rw [v.view_addComment, text]

theorem reads_listStep_entry {item : Item α} (reads : ReadsItem v item) (ends : EndsEntry x)
    (start : Nat) (es : List α) (h : x'.dropWhile Text.isBlank = item.text ++ x) :
    ∃ y, (y = x ∨ x = ' ' :: y) ∧
      Reads (listStep v.kind start { entries := es, needsComma := false }) x' y
        fun t => ∃ l, t = .again l ∧
          ∃ a, l = { entries := a :: es, needsComma := true } ∧ v.view a = item.base := by
  obtain ⟨nonempty, stop, read⟩ := reads
  obtain ⟨y, place, read⟩ := read x ends
  have front := stop.append (y := x) nonempty
  refine ⟨y, place, (reads_skipBlanks_to h).followedBy ?_⟩
  refine (reads_eat_no (front.mono fun c close => ?_)).followedBy ?_
  · simpa using Or.inl (Or.inr (of_decide_eq_true close))
  refine (reads_remark?_no (front.mono fun c sharp => ?_)).followedBy ?_
  · simpa using Or.inr (of_decide_eq_true sharp)
  refine (reads_atEnd_no fun none => nonempty (List.append_eq_nil_iff.1 none).1).followedBy ?_
  exact read.bind fun a base => reads_pure ⟨_, rfl, _, rfl, base⟩

theorem alike_of_place {y : List Char} (place : y = x ∨ x = ' ' :: y) : Alike y x := by
  rcases place with rfl | rfl
  · rfl
  · rw [Alike, List.dropWhile_cons_of_pos (by decide)]

variable {Q : List α → Prop}

/-- The comments after an entry. -/
theorem reads_remarks {lines : List String} (remarks : Remarks lines x y) (alike : Alike x' x)
    {a : α} {es : List α} {b : Bool}
    (rest : ∀ a' y', v.view a' = lines.foldl v.note (v.view a) → Alike y' y →
      Reads (loop (listStep v.kind start) (moves_listStep v.kind start)
        { entries := a' :: es, needsComma := b }) y' z Q) :
    Reads (loop (listStep v.kind start) (moves_listStep v.kind start)
      { entries := a :: es, needsComma := b }) x' z Q := by
  induction remarks generalizing x' a with
  | nil x => exact rest a x' rfl alike
  | cons blank good remarks ih =>
    rename_i lead line lines x y
    obtain ⟨more, begins⟩ := stops_commentText line ('\n' :: x)
    have here : x'.dropWhile Text.isBlank = commentText line ++ '\n' :: x := by
      rw [alike, dropWhile_lead blank]
      rw [begins]
      exact .cons (by decide)
    refine Reads.again (reads_listStep_remark good here) ?_
    rintro l ⟨a', rfl, viewed⟩
    refine ih rfl fun a'' y' final alike' => rest a'' y' ?_ alike'
    rw [final, viewed]
    rfl

/-- What an entry says with its comments. -/
def Item.full (v : EntryView α) (item : Item α) : α :=
  item.lines.foldl v.note item.base

/-- Comment lines that are noted one after the other are added at once. -/
theorem foldl_note (note : α → String → α) (f : α → List Comment → α) (nothing : ∀ a, f a [] = a)
    (one : ∀ a comments line, note (f a comments) line = f a (comments ++ [{ text := line }]))
    (lines : List String) (a : α) :
    lines.foldl note a = f a (lines.map fun line => { text := line }) := by
  suffices later : ∀ comments, lines.foldl note (f a comments) =
      f a (comments ++ lines.map fun line => { text := line }) by
    simpa [nothing] using later []
  induction lines with
  | nil => simp
  | cons line lines ih =>
    intro comments
    rw [List.foldl_cons, one, ih, List.append_assoc]
    rfl

/-- A printed list is read as the entries that were printed. -/
theorem reads_listed {items : List (Item α)} (listed : Listed items x y) (alike : Alike x' x)
    (close : y.dropWhile Text.isBlank = ')' :: z) (reads : ∀ item ∈ items, ReadsItem v item)
    {es : List α} :
    Reads (loop (listStep v.kind start) (moves_listStep v.kind start)
        { entries := es, needsComma := false }) x' z
      fun r => r.map v.view = es.reverse.map v.view ++ items.map (Item.full v) := by
  induction listed generalizing x' es with
  | nil x =>
    refine Reads.done ((reads_listStep_close (alike.trans close)).mono ?_)
    rintro _ rfl
    exact ⟨_, rfl, by simp⟩
  | last item blank ends remarks =>
    rename_i lead x y
    have one := reads item List.mem_cons_self
    have front : Stops Text.isBlank (item.text ++ x) :=
      (one.2.1.append one.1).mono fun c blank => by simp [blank]
    obtain ⟨y', place, read⟩ := reads_listStep_entry one ends start es
      (alike.trans (dropWhile_lead blank front))
    refine Reads.again read ?_
    rintro l ⟨a, rfl, base⟩
    refine reads_remarks remarks (alike_of_place place) fun a' y'' viewed alike' => ?_
    refine Reads.done ((reads_listStep_close (alike'.trans close)).mono ?_)
    rintro _ rfl
    refine ⟨_, rfl, ?_⟩
    simp [viewed, base, Item.full]
  | cons item blank remarks later ih =>
    rename_i next rest lead x y z'
    have one := reads item List.mem_cons_self
    have front : Stops Text.isBlank (item.text ++ ',' :: x) :=
      (one.2.1.append one.1).mono fun c blank => by simp [blank]
    obtain ⟨y', place, read⟩ := reads_listStep_entry (x := ',' :: x) one
      (.inl ⟨_, _, rfl, .inl rfl⟩) start es (alike.trans (dropWhile_lead blank front))
    obtain rfl : y' = ',' :: x := by
      rcases place with same | spaced
      · exact same
      · cases spaced
    refine Reads.again read ?_
    rintro l ⟨a, rfl, base⟩
    have comma : (',' :: x).dropWhile Text.isBlank = ',' :: x :=
      Stops.dropWhile_eq (.cons (by decide))
    refine Reads.againWith (reads_listStep_comma comma) ?_
    refine reads_remarks remarks rfl fun a' y'' viewed alike' => ?_
    refine (ih alike' close fun i member => reads i (List.mem_cons_of_mem _ member)).mono ?_
    intro r final
    rw [final]
    simp [viewed, base, Item.full]

theorem reads_list {items : List (Item α)} (listed : Listed items x y)
    (close : y.dropWhile Text.isBlank = ')' :: z) (reads : ∀ item ∈ items, ReadsItem v item) :
    Reads (list v.kind start) x z fun r => r.map v.view = items.map (Item.full v) :=
  reads_listed listed rfl close reads

/-- A list is read back from any layout of its entries. -/
theorem reads_entries {γ : Type} {item : γ → Item α} {entry : γ → α} {ps : List γ}
    (each : ∀ p ∈ ps, ReadsItem v (item p)) (full : ∀ p, Item.full v (item p) = entry p)
    (listed : Listed (ps.map item) x y) (close : y.dropWhile Text.isBlank = ')' :: z) :
    Reads (list v.kind start) x z fun r => r.map v.view = ps.map entry := by
  refine (reads_list listed close fun i member => ?_).mono fun r same => ?_
  · obtain ⟨p, inside, rfl⟩ := List.mem_map.1 member
    exact each p inside
  · rw [same, List.map_map]
    exact List.map_congr_left fun p _ => full p

end Lists

/-! ## Layouts of a list -/

section Layouts

variable {α γ : Type} (render : γ → String) (comments : γ → List Comment) (base : γ → α)

/-- The printed entry of a parameter. -/
def Item.of (p : γ) : Item α :=
  { text := (render p).toList, lines := commentLines (comments p), base := base p }

/-- Entries without comments on one line. -/
theorem listed_join : ∀ (ps : List γ) (lead : List Char), ps ≠ [] →
    (∀ c ∈ lead, Text.isBlank c = true) → (∀ p ∈ ps, comments p = []) →
    Listed (ps.map (Item.of render comments base))
      (lead ++ ((Text.join ", " (ps.map render)).toList ++ ')' :: x)) (')' :: x)
  | [], _, nonempty, _, _ => absurd rfl nonempty
  | [p], lead, _, blank, silent => by
    rw [List.map_singleton, List.map_singleton, Text.join_singleton]
    refine .last (Item.of render comments base p) blank
      (.inl ⟨_, _, rfl, .inr (.inl rfl)⟩) ?_
    rw [Item.of, silent p List.mem_cons_self]
    exact .nil _
  | p :: q :: rest, lead, _, blank, silent => by
    have later := listed_join (q :: rest) [' '] (by simp) (by simp; decide)
      fun r member => silent r (List.mem_cons_of_mem _ member)
    have layout : (Text.join ", " ((p :: q :: rest).map render)).toList ++ ')' :: x =
        (render p).toList ++ ',' ::
          ([' '] ++ ((Text.join ", " ((q :: rest).map render)).toList ++ ')' :: x)) := by
      rw [List.map_cons, List.map_cons, Text.join_cons_cons]
      simp
    rw [layout]
    refine .cons (Item.of render comments base p) blank ?_ later
    rw [Item.of, silent p List.mem_cons_self]
    exact .nil _

variable {o : PrintOptions}

theorem blank_indentation (n : Nat) :
    ∀ c ∈ '\n' :: List.replicate n ' ', Text.isBlank c = true := by
  intro c member
  rcases List.mem_cons.1 member with rfl | space
  · decide
  · rw [List.eq_of_mem_replicate space]
    decide

theorem dropWhile_indentation (n : Nat) (stop : Stops Text.isBlank x) :
    ('\n' :: (List.replicate n ' ' ++ x)).dropWhile Text.isBlank = x := by
  have drop : ('\n' :: List.replicate n ' ' ++ x).dropWhile Text.isBlank = x :=
    stop.dropWhile_append (blank_indentation n)
  exact drop

/-- The later lines of the comments after an entry, each on a line of its own. -/
theorem remarks_under (plain : o.colorize = false) (n m column : Nat) (as : List Atom) :
    ∀ lines : List String, (∀ line ∈ lines, IsCommentLine line) →
    ∃ t, lay none (Doc.atomsAll n (lines.flatMap fun line =>
        [.line, .text (Text.spaces (column + 1)), .text (o.commentLine line)]) ++ .line m :: as) =
          '\n' :: t ∧ Remarks lines ('\n' :: t) ('\n' :: lay (some m) as)
  | [], _ => ⟨_, lay_line none m as, .nil _⟩
  | line :: lines, good => by
    obtain ⟨t, text, remarks⟩ := remarks_under plain n m column as lines
      fun l member => good l (List.mem_cons_of_mem _ member)
    refine ⟨List.replicate n ' ' ++ ((Text.spaces (column + 1)).toList ++
      (commentText line ++ '\n' :: t)), ?_, ?_⟩
    · have spaces : Text.spaces (column + 1) ≠ "" := by simp [Text.spaces]
      simp only [List.flatMap_cons, List.cons_append, List.nil_append, Doc.atomsAll, Doc.atoms,
        lay_line, lay_some_text spaces, lay_none_text, PrintOptions.toList_commentLine plain, text]
    · have lead : ∀ c ∈ '\n' :: (List.replicate n ' ' ++ (Text.spaces (column + 1)).toList),
          Text.isBlank c = true := by
        intro c member
        simp only [Text.spaces, String.toList_ofList, List.mem_cons, List.mem_append,
          List.mem_replicate] at member
        rcases member with rfl | ⟨-, rfl⟩ | ⟨-, rfl⟩ <;> decide
      have := Remarks.cons lead (good line List.mem_cons_self) remarks
      simpa using this

/-- The comments after an entry. -/
theorem remarks_trailing (plain : o.colorize = false) (n m column : Nat) (as : List Atom)
    (lines : List String) (good : ∀ line ∈ lines, IsCommentLine line) :
    Remarks lines (lay none (Doc.atomsAll n (o.trailingDocs (column + 1) lines) ++ .line m :: as))
      ('\n' :: lay (some m) as) := by
  cases lines with
  | nil => exact .nil _
  | cons line lines =>
    obtain ⟨t, text, remarks⟩ := remarks_under plain n m column as lines
      fun l member => good l (List.mem_cons_of_mem _ member)
    have blank : ∀ c ∈ [' '], Text.isBlank c = true := by simp; decide
    have := Remarks.cons blank (good line List.mem_cons_self) remarks
    simp only [PrintOptions.trailingDocs, Doc.atomsAll, Doc.atoms, List.cons_append,
      List.nil_append, lay_none_text, PrintOptions.toList_commentLine plain, text]
    exact this

theorem endsEntry_trailing (plain : o.colorize = false) (n m column : Nat) (as : List Atom)
    (lines : List String) :
    EndsEntry (lay none (Doc.atomsAll n (o.trailingDocs column lines) ++ .line m :: as)) := by
  cases lines with
  | nil => exact .inl ⟨_, _, lay_line none m as, .inr (.inr rfl)⟩
  | cons line lines =>
    obtain ⟨more, begins⟩ := stops_commentText line
      (lay none (Doc.atomsAll n (lines.flatMap fun line =>
        [.line, .text (Text.spaces column), .text (o.commentLine line)]) ++ .line m :: as))
    refine .inr ⟨more, ?_⟩
    simp only [PrintOptions.trailingDocs, Doc.atomsAll, Doc.atoms, List.cons_append,
      List.nil_append, lay_none_text, PrintOptions.toList_commentLine plain, begins]
    rfl

/-- A list of entries begins with a line break. -/
theorem atomsAll_entriesDocs (o : PrintOptions) (n : Nat) (e : String × List Comment)
    (rest : List (String × List Comment)) :
    ∃ as, Doc.atomsAll n (o.entriesDocs (e :: rest)) = .line n :: as := by
  cases rest with
  | nil => exact ⟨_, rfl⟩
  | cons e' rest => exact ⟨_, rfl⟩

theorem entriesDocs_cons (o : PrintOptions) (e : String × List Comment)
    {rest : List (String × List Comment)} (more : rest ≠ []) :
    o.entriesDocs (e :: rest) = o.entryDocs (e.1 ++ ",") e.2 ++ o.entriesDocs rest := by
  cases rest with
  | nil => exact absurd rfl more
  | cons e' rest => rfl

/-- Entries on lines of their own, with comments. -/
theorem listed_entries (plain : o.colorize = false) (n m : Nat) (as : List Atom) :
    ∀ (ps : List γ) (owed : Option Nat),
    (∀ p ∈ ps, render p ≠ "" ∧ ∀ line ∈ commentLines (comments p), IsCommentLine line) →
    Listed (ps.map (Item.of render comments base))
      (lay owed (Doc.atomsAll n (o.entriesDocs (ps.map fun p => (render p, comments p))) ++
        .line m :: as)) ('\n' :: lay (some m) as)
  | [], owed, _ => by
    simp only [List.map_nil, PrintOptions.entriesDocs, Doc.atomsAll, List.nil_append, lay_line]
    exact .nil _
  | [p], owed, good => by
    obtain ⟨nonempty, lines⟩ := good p List.mem_cons_self
    have text : lay owed (Doc.atomsAll n (o.entriesDocs [(render p, comments p)]) ++ .line m :: as) =
        ('\n' :: List.replicate n ' ') ++ ((render p).toList ++
          lay none (Doc.atomsAll n (o.trailingDocs ((render p).length + 1)
            (commentLines (comments p))) ++ .line m :: as)) := by
      simp only [PrintOptions.entriesDocs, PrintOptions.entryDocs, Doc.atomsAll, Doc.atoms,
        List.cons_append, List.nil_append, lay_line, lay_some_text nonempty]
      rfl
    rw [List.map_singleton, List.map_singleton, text]
    exact .last (Item.of render comments base p) (blank_indentation n)
      (endsEntry_trailing plain n m _ as _) (remarks_trailing plain n m _ as _ lines)
  | p :: q :: rest, owed, good => by
    obtain ⟨-, lines⟩ := good p List.mem_cons_self
    have later := listed_entries plain n m as (q :: rest) none
      fun r member => good r (List.mem_cons_of_mem _ member)
    obtain ⟨as', begins⟩ : ∃ as', Doc.atomsAll n (o.entriesDocs ((q :: rest).map fun p =>
        (render p, comments p))) = .line n :: as' := atomsAll_entriesDocs o n _ _
    rw [begins, List.cons_append, lay_line] at later
    have comma : render p ++ "," ≠ "" := by simp
    have text : lay owed (Doc.atomsAll n (o.entriesDocs ((p :: q :: rest).map fun p =>
        (render p, comments p))) ++ .line m :: as) =
        ('\n' :: List.replicate n ' ') ++ ((render p).toList ++ ',' ::
          lay none (Doc.atomsAll n (o.trailingDocs ((render p ++ ",").length + 1)
            (commentLines (comments p))) ++ .line n :: (as' ++ .line m :: as))) := by
      rw [List.map_cons, entriesDocs_cons o _ (by simp), Doc.atomsAll_append, begins]
      simp only [PrintOptions.entryDocs, Doc.atomsAll, Doc.atoms, List.cons_append,
        List.nil_append, List.append_assoc, lay_line, lay_some_text comma, String.toList_append]
      rfl
    rw [text]
    exact .cons (Item.of render comments base p) (blank_indentation n)
      (remarks_trailing plain n n _ _ _ lines) later

end Layouts

end Reader

end InterfaceFile
