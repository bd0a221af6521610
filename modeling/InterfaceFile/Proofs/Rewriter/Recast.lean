import InterfaceFile.Proofs.Rewriter.Arranged
import InterfaceFile.Proofs.Rewriter.Tagged
import InterfaceFile.Proofs.RoundTrip.Reprint

/-!
# Recast trees

Sorting, spacing and tagging recast a tree: every statement stands where it stood, in another order,
with empty lines around it or with one more comment. What was printable stays printable.
-/

namespace InterfaceFile

/-! ## Printable statements -/

namespace Outline

variable {o : PrintOptions} {depth : Nat}

theorem printableAll_iff {body : List Outline} :
    printableAll o depth body = true ↔ ∀ s ∈ body, s.printable o depth = true := by
  induction body with
  | nil => simp [printableAll]
  | cons s rest ih => rw [printableAll, Bool.and_eq_true, ih, List.forall_mem_cons]

/-- A scope needs room for what stands inside it. -/
def HasRoom (o : PrintOptions) (depth : Nat) (body : List Outline) : Prop :=
  depth < nestingLimit ∨ body = [] ∧ o.foldEmptyScopes = false

theorem printable_iff {node : Node} {body : List Outline} :
    (mk node body).printable o depth = true ↔ node.Printable o ∧
      (node.isScope = false → body = []) ∧
      (node.isScope = true → HasRoom o depth body ∧ ∀ s ∈ body, s.printable o (depth + 1) = true) := by
  rw [printable, Bool.and_eq_true, decide_eq_true_eq]
  cases node.isScope with
  | false => simp
  | true => simp [HasRoom, printableAll_iff]

/-- A scope that is not empty has room for more. -/
theorem HasRoom.mono {body body' : List Outline} (h : HasRoom o depth body)
    (empty : body = [] → body' = []) : HasRoom o depth body' :=
  h.imp id fun ⟨bare, fold⟩ => ⟨empty bare, fold⟩

theorem printable_blank : (mk .blank []).printable o depth = true :=
  printable_iff.2 ⟨⟨trivial, nofun, fun _ => rfl⟩, fun _ => rfl, nofun⟩

end Outline

/-- Would the first line of a statement be read as the level of the file, if it came first? -/
def Node.mimicsHeader (n : Node) : Bool :=
  (commentLines n.comments).head?.any fun line => "typed:".toList.isPrefixOf line.toList

theorem beginsWithHeader_eq (body : List Outline) :
    beginsWithHeader body = body.head?.any fun s => s.node.mimicsHeader := rfl

theorem exists_lines (c : Comment) : ∃ line rest, c.lines = line :: rest := by
  have some : (Text.split '\n' c.text.toList).length ≠ 0 := by
    rw [Text.length_split]
    exact Nat.succ_ne_zero _
  cases pieces : Text.split '\n' c.text.toList with
  | nil => exact absurd (congrArg List.length pieces) some
  | cons piece rest => exact ⟨String.ofList piece, rest.map String.ofList, by
      rw [Comment.lines, Text.lines, pieces, List.map_cons]⟩

/-- The first comment decides. -/
theorem Node.mimicsHeader_congr {a b : Node} (first : a.comments.head? = b.comments.head?) :
    a.mimicsHeader = b.mimicsHeader := by
  have head : ∀ n : Node, (commentLines n.comments).head? =
      n.comments.head?.bind fun c => c.lines.head? := by
    intro n
    cases n.comments with
    | nil => rfl
    | cons c rest =>
      obtain ⟨line, more, lines⟩ := exists_lines c
      simp [commentLines, lines]
  rw [mimicsHeader, mimicsHeader, head, head, first]

/-! ## Statements that are moved, spaced or tagged -/

namespace Tree

variable {t u : Tree} {o : PrintOptions}

/-- `u` has statements of `t` where `t` has them, and empty lines between them. Its nodes are as
    printable as those of `t`. -/
structure Recasts (o : PrintOptions) (t u : Tree) : Prop where
  linked : u.Linked
  strictness : u.strictness = t.strictness
  isScope : ∀ i, (u.node i).isScope = (t.node i).isScope
  printable : ∀ i, (t.node i).Printable o → (u.node i).Printable o
  header : ∀ i, (t.node i).mimicsHeader = false → (u.node i).mimicsHeader = false
  listed : ∀ i, ∀ c ∈ u.body i, c ∈ t.body i ∨ u.outline c = .mk .blank []
  empty : ∀ i, t.body i = [] → u.body i = []

namespace Recasts

theorem outline_printable (h : t.Linked) (recasts : Recasts o t u) (id : NodeId) (depth : Nat)
    (printable : (t.outline id).printable o depth = true) :
    (u.outline id).printable o depth = true := by
  induction id using h.descent.induction generalizing depth with
  | _ id ih =>
    rw [h.outline_eq, Outline.printable_iff] at printable
    obtain ⟨node, leaf, scope⟩ := printable
    rw [recasts.linked.outline_eq, Outline.printable_iff, recasts.isScope, List.map_eq_nil_iff]
    rw [List.map_eq_nil_iff] at leaf
    refine ⟨recasts.printable id node, fun other => recasts.empty id (leaf other), fun opens => ?_⟩
    obtain ⟨room, inside⟩ := scope opens
    refine ⟨room.mono fun none => ?_, fun s member => ?_⟩
    · rw [List.map_eq_nil_iff] at none ⊢
      exact recasts.empty id none
    · obtain ⟨c, listed, rfl⟩ := List.mem_map.1 member
      rcases recasts.listed id c listed with old | blank
      · exact ih c old (depth + 1) (inside _ (List.mem_map_of_mem old))
      · rw [blank]
        exact Outline.printable_blank

theorem printableAll (h : t.Linked) (recasts : Recasts o t u)
    (printable : Outline.printableAll o 0 (t.outline root).body = true) :
    Outline.printableAll o 0 (u.outline root).body = true := by
  rw [Outline.printableAll_iff] at printable ⊢
  intro s member
  rw [recasts.linked.outline_eq] at member
  obtain ⟨c, listed, rfl⟩ := List.mem_map.1 member
  rcases recasts.listed root c listed with old | blank
  · refine recasts.outline_printable h c 0 (printable _ ?_)
    rw [h.outline_eq]
    exact List.mem_map_of_mem old
  · rw [blank]
    exact Outline.printable_blank

end Recasts

theorem SortedAt.recasts {done : List NodeId} (sorted : SortedAt t u done) : Recasts o t u where
  linked := sorted.linked
  strictness := sorted.strictness
  isScope i := by rw [sorted.node]
  printable i fits := by rwa [sorted.node]
  header i other := by rwa [sorted.node]
  listed i c listed := by
    rw [sorted.body] at listed
    split at listed
    · exact .inl (mem_sortedBody.1 listed).1
    · exact .inl listed
  empty i none := by
    rw [sorted.body]
    split
    · apply List.eq_nil_iff_forall_not_mem.2
      intro c listed
      have old := (mem_sortedBody.1 listed).1
      simp [none] at old
    · exact none

theorem SpacedAt.recasts (h : t.Linked) (spaced : SpacedAt t u t.scopes)
    (strictness : u.strictness = t.strictness) : Recasts o t u where
  linked := spaced.linked
  strictness := strictness
  isScope i := by rw [spaced.node]
  printable i fits := by rwa [spaced.node]
  header i other := by rwa [spaced.node]
  listed i c listed := by
    by_cases member : i ∈ t.scopes
    · obtain ⟨new, fresh, -, eq⟩ := spaced.spaced i member
      rcases mem_fillGaps_cases (eq ▸ listed) with old | added
      · exact .inl old
      · exact .inr (spaced.outline_new h (fresh c added))
    · rw [spaced.kept i member] at listed
      exact .inl listed
  empty i none := by
    by_cases member : i ∈ t.scopes
    · apply (spaced.spaced i member).eq_nil_iff.2
      rw [none]
      rfl
    · rw [spaced.kept i member, none]

end Tree

/-! ### Tags -/

/-- The lines of a tag: there is one. -/
theorem lines_tag {name : String} (line : '\n' ∉ name.toList) :
    Comment.lines { text := "@" ++ name } = ["@" ++ name] := by
  apply Text.lines_of_not_mem
  simp [line]

theorem printable_tag {name : String} (line : '\n' ∉ name.toList) (plain : '\r' ∉ name.toList) :
    Comment.Printable { text := "@" ++ name } := by
  intro l member
  rw [lines_tag line, List.mem_singleton] at member
  intro last
  have inside := List.mem_of_getLast? last
  simp [member, plain] at inside

namespace Node

variable {n : Node} {o : PrintOptions} {name : String}

theorem printable_addComment (line : '\n' ∉ name.toList) (plain : '\r' ∉ name.toList)
    (proper : n.isBlank = false) (h : n.Printable o) : (n.addComment ("@" ++ name)).Printable o := by
  obtain ⟨decl, comments, -⟩ := h
  have same : (n.addComment ("@" ++ name)).isBlank = n.isBlank := by
    rw [isBlank, isBlank, decl_addComment]
  refine ⟨by rwa [decl_addComment], fun c member => ?_, fun blank => ?_⟩
  · rcases n.comments_addComment ("@" ++ name) with eq | eq
    · exact comments c (eq ▸ member)
    · rw [eq] at member
      rcases List.mem_append.1 member with old | new
      · exact comments c old
      · rw [List.mem_singleton.1 new]
        exact printable_tag line plain
  · rw [same, proper] at blank
    cases blank

/-- A tag is not taken for a level. -/
theorem mimicsHeader_addComment (line : '\n' ∉ name.toList) (h : n.mimicsHeader = false) :
    (n.addComment ("@" ++ name)).mimicsHeader = false := by
  rcases n.comments_addComment ("@" ++ name) with eq | eq
  · rwa [mimicsHeader, eq]
  · cases old : n.comments with
    | nil =>
      rw [old] at eq
      rw [mimicsHeader, eq]
      simp [commentLines, lines_tag line, List.isPrefixOf]
    | cons c rest =>
      rw [← h]
      apply mimicsHeader_congr
      rw [eq, old]
      rfl

theorem isBlank_of_isTagged {top : Bool} {o : TagOptions} (tagged : n.isTagged top o = true) :
    n.isBlank = false := by
  unfold isTagged at tagged
  unfold isBlank
  cases decl : n.decl <;> simp_all

end Node

theorem Tree.TaggedAt.recasts {t u : Tree} {o : PrintOptions} {name : String} {options : TagOptions}
    {done : List NodeId} (h : t.Linked) (line : '\n' ∉ name.toList) (plain : '\r' ∉ name.toList)
    (tagged : TaggedAt t name options u done) : Recasts o t u := by
  -- A node is the old one, or it is not an empty line and has got the tag.
  have cases : ∀ i, u.node i = t.node i ∨
      (t.node i).isBlank = false ∧ u.node i = (t.node i).addComment ("@" ++ name) := by
    intro i
    rw [tagged.node]
    split
    · unfold taggedNode
      split
      · next marked => exact .inr ⟨Node.isBlank_of_isTagged marked, rfl⟩
      · exact .inl rfl
    · exact .inl rfl
  refine ⟨h.congr tagged.size.ge tagged.parent tagged.body, tagged.strictness, fun i => ?_,
    fun i fits => ?_, fun i other => ?_, fun i c listed => .inl (tagged.body i ▸ listed),
    fun i none => (tagged.body i).trans none⟩
  · rcases cases i with same | ⟨-, added⟩
    · rw [same]
    · rw [added, Node.isScope, Node.isScope, Node.scope?, Node.scope?, Node.decl_addComment]
  · rcases cases i with same | ⟨proper, added⟩
    · rwa [same]
    · rw [added]
      exact Node.printable_addComment line plain proper fits
  · rcases cases i with same | ⟨-, added⟩
    · rwa [same]
    · rw [added]
      exact Node.mimicsHeader_addComment line other

end InterfaceFile
