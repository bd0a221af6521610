import InterfaceFile.Proofs.Merge.Assembly
import InterfaceFile.Proofs.Reader.AcceptedFile
import InterfaceFile.Proofs.Rewriter.PrintableMerge

/-!
# Rewritten trees

Sorting, spacing, tagging and merging leave every text of a tree in a form that the reader takes. One
thing they do not look at is which comment stands first in the file. Where the file has no level, a
comment that begins with `typed:` is read as one as soon as it gets there. So the text of a rewritten
tree is read back exactly if that does not happen.
-/

namespace InterfaceFile

/-! ## Whole trees -/

namespace Tree

variable {t u : Tree} {o : PrintOptions} {trees : List Tree} {keep : Keep}

/-- What a whole merge keeps, if the merge of each body keeps it. -/
theorem mergeOnto_keeps {I : Merging → Prop} {P : List Outline → Prop}
    (step : ∀ body (m : Merging), m.Numbered → P body → I m → I (mergeBody keep "" .pub body m))
    (each : ∀ t ∈ trees, P (t.outline root).body) (m : Merging) (numbered : m.Numbered) (h : I m) :
    I (mergeOnto keep m trees) := by
  induction trees generalizing m with
  | nil => exact h
  | cons t rest ih =>
    obtain ⟨first, later⟩ := List.forall_mem_cons.1 each
    have grown := grows_mergeBody keep (t.outline root).body "" .pub m numbered
    exact ih later _ (grown.numbered numbered) (step _ m numbered first h)

/-- All statements of the tree are printable and so is its level. What is missing is that the first
    line is not taken for a level. -/
structure Legible (o : PrintOptions) (t : Tree) : Prop where
  linked : t.Linked
  statements : Outline.printableAll o 0 (t.outline root).body = true
  level : ∀ level ∈ o.strictness <|> t.strictness, '\n' ∉ level.toList

theorem Legible.printable_iff (h : t.Legible o) : t.Printable o ↔
    ((o.strictness <|> t.strictness) = none → beginsWithHeader (t.outline root).body = false) :=
  ⟨fun printable => printable.2.2, fun header => ⟨h.statements, h.level, header⟩⟩

theorem Recasts.legible (recasts : Recasts o t u) (h : t.Legible o) : u.Legible o :=
  ⟨recasts.linked, recasts.printableAll h.linked h.statements, recasts.strictness ▸ h.level⟩

theorem firstStrictness_mem {level : String} (first : firstStrictness trees = some level) :
    ∃ t ∈ trees, t.strictness = some level := by
  have member := List.mem_of_find?_eq_some first
  simpa using member

theorem legible_merge (fits : ∀ level ∈ o.strictness, '\n' ∉ level.toList)
    (each : ∀ t ∈ trees, t.Legible o) : (merge keep trees).1.Legible o := by
  refine ⟨(assemble_eq keep trees).2, ?_, fun level given => ?_⟩
  · rw [outline_merge, Outline.printableAll_iff]
    apply mergeOnto_keeps (I := Merging.PrintableAt o 0)
      (P := fun body => Outline.printableAll o 0 body = true)
    · intro body m numbered printable h
      exact printableAt_mergeBody keep body 0 "" .pub m numbered
        (Outline.printableAll_iff.1 printable) h
    · exact fun t member => (each t member).statements
    · exact Merging.numbered_empty
    · nofun
  · cases own : o.strictness with
    | some level' =>
      rw [own] at given
      exact fits level (own ▸ given)
    | none =>
      rw [own, strictness_merge] at given
      obtain ⟨t, member, eq⟩ := firstStrictness_mem (show firstStrictness trees = some level from given)
      refine (each t member).level level ?_
      rw [own, eq]
      rfl

/-- Where the tree has no level, no statement at its top could be taken for one, in whatever order
    they come. An empty level counts as none: it does not survive a merge. -/
def HeaderFree (t : Tree) : Prop :=
  t.strictness.getD "" = "" → ∀ s ∈ (t.outline root).body, s.node.mimicsHeader = false

theorem HeaderFree.beginsWithHeader_eq (h : t.HeaderFree) (none : t.strictness = none) :
    beginsWithHeader (t.outline root).body = false := by
  rw [InterfaceFile.beginsWithHeader_eq]
  cases body : (t.outline root).body with
  | nil => rfl
  | cons s rest =>
    have first := h (by rw [none]; rfl) s (by simp [body])
    simpa using first

theorem Recasts.headerFree (recasts : Recasts o t u) (linked : t.Linked) (h : t.HeaderFree) :
    u.HeaderFree := by
  intro none s member
  rw [recasts.strictness] at none
  rw [recasts.linked.outline_eq] at member
  obtain ⟨c, listed, rfl⟩ := List.mem_map.1 member
  rcases recasts.listed root c listed with old | blank
  · have before := h none (t.outline c) (by rw [linked.outline_eq]; exact List.mem_map_of_mem old)
    rw [linked.outline_eq] at before
    rw [recasts.linked.outline_eq]
    exact recasts.header c before
  · rw [blank]
    rfl

/-- Merged trees have no level only if none of them has one. -/
theorem firstStrictness_empty (none : (firstStrictness trees).getD "" = "") :
    ∀ t ∈ trees, t.strictness.getD "" = "" := by
  cases first : firstStrictness trees with
  | some level =>
    have proper := List.find?_some first
    rw [first] at none
    exact absurd none (by simpa using proper)
  | none =>
    intro t member
    cases level : t.strictness with
    | none => rfl
    | some l =>
      have listed : l ∈ trees.filterMap Tree.strictness :=
        List.mem_filterMap.2 ⟨t, member, level⟩
      simpa using List.find?_eq_none.1 first l listed

theorem headerFree_merge (each : ∀ t ∈ trees, t.HeaderFree) : (merge keep trees).1.HeaderFree := by
  intro none
  have levels := firstStrictness_empty none
  rw [outline_merge]
  apply mergeOnto_keeps (I := Merging.HeaderFree)
    (P := fun body => ∀ s ∈ body, s.node.mimicsHeader = false)
  · intro body m numbered other h
    exact headerFree_mergeBody keep "" body .pub m numbered other h
  · exact fun t member => each t member (levels t member)
  · exact Merging.numbered_empty
  · nofun

end Tree

/-- The trees that come out of rewriters, one after the other in any order, when they are applied to
    the given trees and to what comes out. A tag is one line. -/
inductive Rewritten (given : Tree → Prop) : Tree → Prop
  | source {t : Tree} (h : given t) : Rewritten given t
  | sort {t t' : Tree} (h : Rewritten given t) (run : t.sort = .ok t') : Rewritten given t'
  | space {t t' : Tree} (h : Rewritten given t) (run : t.space = .ok t') : Rewritten given t'
  | tag {t : Tree} (h : Rewritten given t) (name : String) (options : TagOptions)
      (line : '\n' ∉ name.toList) (plain : '\r' ∉ name.toList) :
      Rewritten given (t.tag name options)
  | merge (keep : Keep) {trees : List Tree} (each : ∀ t ∈ trees, Rewritten given t) :
      Rewritten given (Tree.merge keep trees).1

namespace Rewritten

variable {given : Tree → Prop} {o : PrintOptions} {t u : Tree}

/-- A rewriter of one tree recasts it. -/
theorem recasts_sort (h : t.Linked) (run : t.sort = .ok u) : Tree.Recasts o t u := by
  obtain ⟨u', run', sorted⟩ := h.sort_ok
  cases run.symm.trans run'
  exact sorted.recasts

theorem recasts_space (h : t.Linked) (run : t.space = .ok u) : Tree.Recasts o t u := by
  obtain ⟨u', run', spaced⟩ := h.space_ok
  cases run.symm.trans run'
  exact spaced.recasts h (Tree.strictness_space run)

theorem recasts_tag (h : t.Linked) {name : String} (options : TagOptions)
    (line : '\n' ∉ name.toList) (plain : '\r' ∉ name.toList) :
    Tree.Recasts o t (t.tag name options) :=
  (h.taggedAt name options).recasts h line plain

theorem legible (fits : ∀ level ∈ o.strictness, '\n' ∉ level.toList)
    (legible : ∀ t, given t → t.Legible o) (h : Rewritten given t) : t.Legible o := by
  induction h with
  | source h => exact legible _ h
  | sort h run ih => exact (recasts_sort ih.linked run).legible ih
  | space h run ih => exact (recasts_space ih.linked run).legible ih
  | tag h name options line plain ih =>
    exact (recasts_tag ih.linked options line plain).legible ih
  | merge keep each ih => exact Tree.legible_merge fits ih

theorem headerFree (linked : ∀ t, given t → t.Linked) (free : ∀ t, given t → t.HeaderFree)
    (h : Rewritten given t) : t.Linked ∧ t.HeaderFree := by
  induction h with
  | source h => exact ⟨linked _ h, free _ h⟩
  | sort h run ih =>
    have recasts := recasts_sort (o := {}) ih.1 run
    exact ⟨recasts.linked, recasts.headerFree ih.1 ih.2⟩
  | space h run ih =>
    have recasts := recasts_space (o := {}) ih.1 run
    exact ⟨recasts.linked, recasts.headerFree ih.1 ih.2⟩
  | tag h name options line plain ih =>
    have recasts := recasts_tag (o := {}) ih.1 options line plain
    exact ⟨recasts.linked, recasts.headerFree ih.1 ih.2⟩
  | merge keep each ih =>
    exact ⟨(Tree.assemble_eq keep _).2, Tree.headerFree_merge fun t member => (ih t member).2⟩

end Rewritten

/-! ## Files that begin with a comment like a level -/

namespace Reader

variable {o : PrintOptions} {x : List Char}

theorem commentText_of_header {line : String} (header : "typed:".toList.isPrefixOf line.toList = true) :
    "# typed:".toList <+: commentText line ++ x := by
  obtain ⟨rest, eq⟩ := List.isPrefixOf_iff_prefix.1 header
  have proper : line.isEmpty = false := by
    rw [Bool.eq_false_iff, Ne, String.isEmpty_iff]
    rintro rfl
    cases eq
  rw [commentText, proper, if_neg (by simp), ← eq]
  exact ⟨rest ++ x, by simp⟩

/-- The text of statements whose first line mimics a header begins like one. -/
theorem header_of_beginsWithHeader (plain : o.colorize = false) {body : List Outline}
    (h : beginsWithHeader body = true) :
    "# typed:".toList <+: lay .none (Doc.atomsAll 0 (topDocs o body)) := by
  cases body with
  | nil => cases h
  | cons first rest =>
    obtain ⟨node, body⟩ := first
    have own : node.mimicsHeader = true := h
    cases lines : commentLines node.comments with
    | nil =>
      rw [Node.mimicsHeader, lines] at own
      cases own
    | cons line more =>
      rw [Node.mimicsHeader, lines] at own
      obtain ⟨x, text⟩ := lay_first_comment plain lines
      rw [text]
      exact commentText_of_header own

theorem gives_remark?_stops : Gives remark? x fun r _ => r = none → Stops (· = '#') x := by
  refine gives_here.bind fun start y same => gives_eat.bind fun found z given => ?_
  cases found with
  | false => exact gives_pure fun _ => same ▸ given.2 rfl
  | true => exact gives_next fun _ _ => gives_next fun _ _ => gives_next fun _ _ =>
      gives_next fun _ _ => gives_pure nofun

/-- A text that begins like a level has one. -/
theorem gives_strictness?_ne_none (header : "# typed:".toList <+: x) :
    Gives strictness? x fun r _ => r ≠ none := by
  refine (gives_look _).bind fun found y looked => ?_
  obtain ⟨rfl, rfl⟩ := looked
  rw [if_pos (List.isPrefixOf_iff_prefix.2 header)]
  refine gives_remark?_stops.bind fun remark z stops => ?_
  cases remark with
  | none =>
    obtain ⟨rest, eq⟩ := header
    have sharp := stops rfl
    rw [← eq] at sharp
    cases Stops.cons_iff.1 sharp
  | some remark =>
    refine gives_next fun _ _ => gives_branch (fun _ => ?_) fun _ => gives_pure nofun
    exact gives_next fun _ _ => gives_next fun _ _ => gives_pure nofun

end Reader

namespace Tree

variable {t : Tree} {o : PrintOptions}

/-- The text of the tree is accepted, and what is read from it, or from its bytes if there are less than
    2³², says what was written. -/
def ReadsBack (o : PrintOptions) (t : Tree) : Prop :=
  ∀ file, ∃ t', parse (t.render o) file = .ok t' ∧
    ((t.render o).utf8ByteSize < 2 ^ 32 → parseBytes? (t.render o) file = some (.ok t')) ∧
    Outline.unlocatedAll (t'.outline root).body = Outline.writtenAll (t.outline root).body ∧
    t'.strictness = (o.strictness <|> t.strictness).map Reader.trimmed

/-- A comment that comes first and looks like a level is read as one. -/
theorem strictness_of_beginsWithHeader (plain : o.colorize = false)
    (unlocated : o.printLocations = false) (none : (o.strictness <|> t.strictness) = none)
    (header : beginsWithHeader (t.outline root).body = true) {file : Option String} {t' : Tree}
    (read : parse (t.render o) file = .ok t') : t'.strictness ≠ .none := by
  have text : (t.render o).toList =
      lay .none (Doc.atomsAll 0 (Reader.topDocs o (t.outline root).body)) := by
    rw [render, Doc.toList_render, Reader.fileDoc_eq unlocated, none]
    rfl
  have begins := Reader.header_of_beginsWithHeader plain header
  rw [← text] at begins
  have given : Reader.Gives Reader.file (t.render o).toList fun t' _ => t'.strictness ≠ .none :=
    (Reader.gives_strictness?_ne_none begins).bind fun level y some =>
      Reader.gives_next fun _ _ => Reader.gives_pure some
  obtain ⟨d, run⟩ := Reader.run_eq_ok.1 read
  exact given _ t' d rfl run

/-- A legible tree is read back exactly if it is printable. -/
theorem Legible.readsBack_iff (plain : o.colorize = false) (unlocated : o.printLocations = false)
    (h : t.Legible o) : t.ReadsBack o ↔ t.Printable o := by
  constructor
  · intro back
    refine h.printable_iff.2 fun none => ?_
    rw [Bool.eq_false_iff]
    intro header
    obtain ⟨t', read, -, -, level⟩ := back .none
    rw [none] at level
    exact strictness_of_beginsWithHeader plain unlocated none header read level
  · intro printable file
    obtain ⟨t', read, body, level⟩ := parse_render printable plain unlocated file
    exact ⟨t', read, parseBytes?_of_parse read, body, level⟩

end Tree

/-- Whatever rewriters are applied to printable trees, in any order, none of them fails, all
    statements stay printable, and the text of the result is read back exactly if its first line is not
    taken for the level of the file. It never is if the result has a level or gets one, or if no
    statement at the top of a given tree without a level has a first comment that looks like one. -/
theorem rewritten_trees_are_read_back (o : PrintOptions) (plain : o.colorize = false)
    (unlocated : o.printLocations = false) (fits : ∀ level ∈ o.strictness, '\n' ∉ level.toList)
    (given : Tree → Prop) (linked : ∀ t, given t → t.Linked)
    (printable : ∀ t, given t → t.Printable o) (t : Tree) (h : Rewritten given t) :
    (∃ t', t.sort = .ok t') ∧ (∃ t', t.space = .ok t') ∧
      Outline.printableAll o 0 (t.outline Tree.root).body = true ∧
      (t.ReadsBack o ↔ t.Printable o) ∧
      (t.Printable o ↔ ((o.strictness <|> t.strictness) = none →
        beginsWithHeader (t.outline Tree.root).body = false)) ∧
      ((∀ t, given t → t.HeaderFree) → t.Printable o) := by
  have legible : t.Legible o :=
    h.legible fits fun t h => ⟨linked t h, (printable t h).1, (printable t h).2.1⟩
  obtain ⟨t₁, sort, -⟩ := legible.linked.sort_ok
  obtain ⟨t₂, space, -⟩ := legible.linked.space_ok
  refine ⟨⟨t₁, sort⟩, ⟨t₂, space⟩, legible.statements, legible.readsBack_iff plain unlocated,
    legible.printable_iff, fun free => legible.printable_iff.2 fun none => ?_⟩
  refine (h.headerFree linked free).2.beginsWithHeader_eq ?_
  cases own : o.strictness with
  | some level =>
    rw [own] at none
    cases none
  | none => rwa [own] at none

theorem rewritten_trees_are_read_back_crowdedFile :
    crowdedFile.Printable {} ∧
      ((Tree.merge .right [crowdedFile, crowdedFile]).1.tag "test" {}).ReadsBack {} := by
  have linked : crowdedFile.Linked := linked_crowdedFile
  have printable : crowdedFile.Printable {} := by decide
  have free : crowdedFile.HeaderFree := fun _ => by decide
  have merged : Rewritten (· = crowdedFile)
      ((Tree.merge .right [crowdedFile, crowdedFile]).1.tag "test" {}) := by
    refine .tag (.merge .right fun t member => .source ?_) "test" {} (by decide) (by decide)
    simpa using member
  obtain ⟨-, -, -, back, -, safe⟩ := rewritten_trees_are_read_back {} rfl rfl nofun
    (· = crowdedFile) (by rintro _ rfl; exact linked) (by rintro _ rfl; exact printable) _ merged
  exact ⟨printable, back.2 (safe (by rintro _ rfl; exact free))⟩

/-- A constant whose comment looks like a level comes after another constant, but before it by
    name. -/
def lateHeader : Tree :=
  let t := (Edit.push 0 { decl := .const { name := "B" } }).apply .empty
  (Edit.push 0 { decl := .const { name := "A" }, comments := [{ text := "typed: x" }] }).apply t

/-- Sorting can put a comment where it is read as the level of the file. -/
theorem sorting_can_make_a_level : lateHeader.Linked ∧ lateHeader.Printable {} ∧
    ∃ t', lateHeader.sort = .ok t' ∧ t'.strictness = none ∧ ¬ t'.Printable {} ∧
      ∀ file t'', Tree.parse (t'.render {}) file = .ok t'' → t''.strictness ≠ none := by
  have one := Built.empty.edit (.push 0 { decl := .const { name := "B" } }) (by decide)
  have linked : lateHeader.Linked := (one.edit
    (.push 0 { decl := .const { name := "A" }, comments := [{ text := "typed: x" }] })
    (by decide)).linked
  obtain ⟨t', run, sorted⟩ := linked.sort_ok
  have body : t'.body Tree.root = [2, 1] := by
    rw [sorted.body, if_pos (by decide)]
    show lateHeader.sortSection [1, 2] = _
    rw [Tree.sortSection_pair]
    decide
  have header : beginsWithHeader (t'.outline Tree.root).body = true := by
    rw [sorted.linked.outline_eq, body, beginsWithHeader_eq]
    show (t'.outline 2).node.mimicsHeader = true
    rw [sorted.linked.outline_eq, sorted.node]
    show (lateHeader.node 2).mimicsHeader = true
    decide
  have level : t'.strictness = none := sorted.strictness
  refine ⟨linked, by decide, t', run, level, fun printable => ?_, fun file t'' read => ?_⟩
  · rw [printable.2.2 level] at header
    cases header
  · exact Tree.strictness_of_beginsWithHeader (o := {}) rfl rfl level header read

end InterfaceFile
