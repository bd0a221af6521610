import InterfaceFile.Proofs.Merge.Extended
import InterfaceFile.Proofs.Rewriter.Recast

/-!
# Merged statements stay printable

A declaration that comes out of a merge has the header of one of the two that were merged and comments
of both, so it is printable if they are. A scope that gets statements inside has room for them, since
one of the two had.
-/

namespace InterfaceFile

/-! ## Two declarations -/

namespace Node

variable {o : PrintOptions} {keep : Keep} {old new merged : Node}

/-- What stays has comments of the two declarations, the earlier ones first. -/
theorem Stays.comments (h : Stays old new merged) :
    merged.comments = old.comments ∨ merged.comments = new.comments ∨
      merged.comments = uniteComments old.comments new.comments := by
  cases h with
  | earlier => exact .inl rfl
  | later => exact .inr (.inl rfl)
  | united | unitedLater => exact .inr (.inr rfl)

theorem isBlank_of_key {n m : Node} (same : n.key? = m.key?) : n.isBlank = m.isBlank := by
  rw [Bool.eq_iff_iff, ← key?_eq_none, ← key?_eq_none, same]

theorem printable_unify (same : old.key? = new.key?) (proper : new.isBlank = false)
    (stays : (old.unify keep new).node = some merged) (left : old.Printable o)
    (right : new.Printable o) : merged.Printable o := by
  refine ⟨?_, fun c member => ?_, fun blank => ?_⟩
  · rcases (stays_unify same stays).decl with decl | decl
    · rw [decl]
      exact left.1
    · rw [decl]
      exact right.1
  · rcases (stays_unify same stays).comments with eq | eq | eq
    · exact left.2.1 c (eq ▸ member)
    · exact right.2.1 c (eq ▸ member)
    · rcases mem_of_mem_uniteComments (eq ▸ member) with before | after
      · exact left.2.1 c before
      · exact right.2.1 c after
  · rw [isBlank_of_key ((key?_unify same stays).trans same), proper] at blank
    cases blank

theorem head?_uniteComments (comments more : List Comment) :
    (uniteComments comments more).head? = (comments ++ more).head? := by
  cases comments with
  | nil =>
    cases more with
    | nil => rfl
    | cons c rest =>
      obtain ⟨later, eq⟩ := prefix_uniteComments [c] rest
      show (uniteComments [c] rest).head? = _
      rw [← eq]
      rfl
  | cons c rest =>
    obtain ⟨later, eq⟩ := prefix_uniteComments (c :: rest) more
    rw [← eq]
    rfl

theorem mimicsHeader_unify (same : old.key? = new.key?)
    (stays : (old.unify keep new).node = some merged) (left : old.mimicsHeader = false)
    (right : new.mimicsHeader = false) : merged.mimicsHeader = false := by
  rcases (stays_unify same stays).comments with eq | eq | eq
  · rwa [mimicsHeader, eq]
  · rwa [mimicsHeader, eq]
  · cases first : old.comments with
    | nil =>
      rw [← right]
      apply mimicsHeader_congr
      rw [eq, head?_uniteComments, first, List.nil_append]
    | cons c rest =>
      rw [← left]
      apply mimicsHeader_congr
      rw [eq, head?_uniteComments, first]
      rfl

theorem comments_inSection (level : Visibility) (n : Node) :
    (n.inSection level).comments = n.comments := by
  rcases n.inSection_cases level with same | ⟨m, -, eq⟩ | ⟨a, -, eq⟩
  · rw [same]
  · rw [eq]
  · rw [eq]

/-- Nothing depends on the visibility. -/
theorem printable_inSection (level : Visibility) {n : Node} (h : n.Printable o) :
    (n.inSection level).Printable o := by
  obtain ⟨decl, comments, blank⟩ := h
  rcases n.inSection_cases level with same | ⟨m, method, eq⟩ | ⟨a, attr, eq⟩
  · rw [same]
    exact ⟨decl, comments, blank⟩
  · rw [method] at decl
    rw [eq]
    exact ⟨decl, comments, nofun⟩
  · rw [attr] at decl
    rw [eq]
    exact ⟨decl, comments, nofun⟩

end Node

/-! ## One step -/

namespace Merging

variable {o : PrintOptions} {depth : Nat} {keep : Keep} {name : String} {node : Node}
  {inside : String → Merging → Merging} {m result : Merging}

/-- All that the entries say is printable with `depth` scopes around it. -/
def PrintableAt (o : PrintOptions) (depth : Nat) (m : Merging) : Prop :=
  ∀ s ∈ Entry.outlines m.entries, s.printable o depth = true

/-- What a step leaves is what was there and the declaration that was merged. -/
theorem Step.outlines_cases (step : Step keep name node inside m result) {s : Outline}
    (member : s ∈ Entry.outlines result.entries) : s ∈ Entry.outlines m.entries ∨
      (∃ inner, inner = enter node.isScope inside (node.qualifiedIn name)
          { next := m.next + 1, conflicts := m.conflicts } ∧
        s = .mk node (Entry.outlines inner.entries)) ∨
      ∃ e ∈ m.entries, e.dropped = false ∧ e.node.key? = node.key? ∧
        ∃ merged, (e.node.unify keep node).node = some merged ∧
          ∃ conflicts inner, inner = enter (e.node.unify keep node).descend inside
              (merged.qualifiedIn name) { entries := e.body, next := m.next, conflicts } ∧
            s = .mk merged (Entry.outlines inner.entries) := by
  cases step with
  | @add inner fresh run =>
    rw [Entry.outlines_append] at member
    rcases List.mem_append.1 member with old | new
    · exact .inl old
    · have last := List.mem_singleton.1 new
      exact .inr (.inl ⟨inner, run, last⟩)
  | skip found dropped => exact .inl member
  | @drop before after e found stays none =>
    rw [Entry.outlines_split_dropped rfl] at member
    rw [found.split, Entry.outlines_split stays]
    rcases List.mem_append.1 member with left | right
    · exact .inl (List.mem_append_left _ left)
    · exact .inl (List.mem_append_right _ (List.mem_cons_of_mem _ right))
  | @update before after e merged inner found stays some run =>
    rw [Entry.outlines_split rfl] at member
    rw [found.split, Entry.outlines_split stays]
    rcases List.mem_append.1 member with left | right
    · exact .inl (List.mem_append_left _ left)
    · rcases List.mem_cons.1 right with own | right
      · refine .inr (.inr ⟨e, ?_, stays, found.key, merged, some, _, inner, run, own⟩)
        simp
      · exact .inl (List.mem_append_right _ (List.mem_cons_of_mem _ right))

/-- A run of statements that is either nothing or has room. -/
structure FitsInside (o : PrintOptions) (depth : Nat) (inside : String → Merging → Merging) :
    Prop where
  room : depth < nestingLimit ∨ o.foldEmptyScopes = false ∧ ∀ name m, inside name m = m
  printable : ∀ name (m : Merging), m.Numbered → m.PrintableAt o (depth + 1) →
    (inside name m).PrintableAt o (depth + 1)

theorem FitsInside.enter (fits : FitsInside o depth inside) (numbered : m.Numbered)
    (room : Outline.HasRoom o depth (Entry.outlines m.entries)) (h : m.PrintableAt o (depth + 1))
    (descend : Bool) (name : String) :
    Outline.HasRoom o depth (Entry.outlines (enter descend inside name m).entries) ∧
      (enter descend inside name m).PrintableAt o (depth + 1) := by
  unfold Merging.enter
  cases descend with
  | false => exact ⟨room, h⟩
  | true =>
    refine ⟨?_, fits.printable name m numbered h⟩
    rcases fits.room with deep | ⟨-, nothing⟩
    · exact .inl deep
    · simpa only [if_true, nothing] using room

/-- A step leaves everything printable. -/
theorem PrintableAt.step (numbered : m.Numbered) (h : m.PrintableAt o depth)
    (proper : node.isBlank = false) (fits : node.Printable o)
    (inner : node.isScope = true → FitsInside o depth inside)
    (step : Step keep name node inside m result) : result.PrintableAt o depth := by
  intro s member
  rcases step.outlines_cases member with old | ⟨more, rfl, rfl⟩ |
    ⟨e, known, stays, same, merged, some, conflicts, more, rfl, rfl⟩
  · exact h s old
  · refine Outline.printable_iff.2 ⟨fits, fun leaf => ?_, fun opens => ?_⟩
    · rw [leaf]
      rfl
    · have start : PrintableAt o (depth + 1) { next := m.next + 1, conflicts := m.conflicts } :=
        nofun
      have room : Outline.HasRoom o depth [] :=
        (inner opens).room.imp id fun ⟨fold, _⟩ => ⟨rfl, fold⟩
      exact (inner opens).enter (numbered_start _ _) room start _ _
  · have before : (Outline.mk e.node (Entry.outlines e.body)).printable o depth = true :=
      h _ (Entry.mem_outlines.2 ⟨e, known, stays, rfl⟩)
    obtain ⟨left, bare, scope⟩ := Outline.printable_iff.1 before
    have kind : merged.isScope = e.node.isScope :=
      Node.isScope_congr (Node.key?_unify same some)
    have kind' : e.node.isScope = node.isScope := Node.isScope_congr same
    refine Outline.printable_iff.2 ⟨Node.printable_unify same proper some left fits,
      fun leaf => ?_, fun opens => ?_⟩
    · rw [kind] at leaf
      rw [Node.descend_of_leaf same leaf]
      exact bare leaf
    · rw [kind] at opens
      obtain ⟨room, printable⟩ := scope opens
      exact (inner (kind' ▸ opens)).enter (numbered.inside _ known) room printable _ _

end Merging

mutual

theorem printableAt_mergeStatement {o : PrintOptions} (keep : Keep) :
    ∀ (s : Outline) (depth : Nat) (name : String) (level : Visibility) (m : Merging), m.Numbered →
      s.printable o depth = true → m.PrintableAt o depth →
        (mergeStatement keep name level s m).PrintableAt o depth
  | .mk node body, depth, name, level, m, numbered, fits, h => by
    obtain ⟨printable, -, scope⟩ := Outline.printable_iff.1 fits
    rcases step_mergeStatement keep name level node body numbered with same | ⟨proper, step⟩
    · rw [same]
      exact h
    · refine h.step numbered proper (Node.printable_inSection level printable) (fun opens => ?_) step
      rw [Node.isScope, Node.scope?_inSection] at opens
      obtain ⟨room, inside⟩ := scope opens
      constructor
      · rcases room with deep | ⟨rfl, fold⟩
        · exact .inl deep
        · exact .inr ⟨fold, fun name m => by rw [mergeBody]⟩
      · intro name m ok before
        exact printableAt_mergeBody keep body (depth + 1) name .pub m ok inside before

theorem printableAt_mergeBody {o : PrintOptions} (keep : Keep) :
    ∀ (body : List Outline) (depth : Nat) (name : String) (level : Visibility) (m : Merging),
      m.Numbered → (∀ s ∈ body, s.printable o depth = true) → m.PrintableAt o depth →
        (mergeBody keep name level body m).PrintableAt o depth
  | [], _, _, _, _, _, _, h => by
    rw [mergeBody]
    exact h
  | s :: rest, depth, name, level, m, numbered, fits, h => by
    obtain ⟨first, later⟩ := List.forall_mem_cons.1 fits
    rw [mergeBody]
    split
    · exact printableAt_mergeBody keep rest depth name _ m numbered later h
    · have grown := grows_mergeStatement keep s name level m numbered
      exact printableAt_mergeBody keep rest depth name level _ (grown.numbered numbered) later
        (printableAt_mergeStatement keep s depth name level m numbered first h)

end

/-- No statement that the entries stand for could be taken for a level. -/
def Merging.HeaderFree (m : Merging) : Prop :=
  ∀ s ∈ Entry.outlines m.entries, s.node.mimicsHeader = false

theorem Merging.HeaderFree.step {keep : Keep} {name : String} {node : Node}
    {inside : String → Merging → Merging} {m result : Merging} (h : m.HeaderFree)
    (other : node.mimicsHeader = false) (step : Step keep name node inside m result) :
    result.HeaderFree := by
  intro s member
  rcases step.outlines_cases member with old | ⟨more, -, rfl⟩ |
    ⟨e, known, stays, same, merged, some, conflicts, more, -, rfl⟩
  · exact h s old
  · exact other
  · have before := h _ (Entry.mem_outlines.2 ⟨e, known, stays, rfl⟩)
    exact Node.mimicsHeader_unify same some before other

theorem headerFree_mergeBody (keep : Keep) (name : String) (body : List Outline) (level : Visibility)
    (m : Merging) (numbered : m.Numbered) (other : ∀ s ∈ body, s.node.mimicsHeader = false)
    (h : m.HeaderFree) : (mergeBody keep name level body m).HeaderFree := by
  induction body generalizing level m with
  | nil =>
    rw [mergeBody]
    exact h
  | cons s rest ih =>
    obtain ⟨first, later⟩ := List.forall_mem_cons.1 other
    rw [mergeBody]
    split
    · exact ih _ m numbered later h
    · have grown := grows_mergeStatement keep s name level m numbered
      refine ih level _ (grown.numbered numbered) later ?_
      obtain ⟨node, body⟩ := s
      rcases step_mergeStatement keep name level node body numbered with same | ⟨-, step⟩
      · rw [same]
        exact h
      · refine h.step ?_ step
        rwa [Node.mimicsHeader, Node.comments_inSection]

end InterfaceFile
