import InterfaceFile.Proofs.Rewriter.Gaps
import InterfaceFile.Proofs.Tree.Bodies
import InterfaceFile.Proofs.Tree.Built

/-!
# Spaced trees

Spacing goes through the scopes from the root down. When a scope has its turn, the scopes inside it
still have their old bodies, and whether they take more than one line is decided by these. A scope
that held nothing but empty lines takes one line afterwards, so the next run may close a gap beside
it. No scope is left in that state after one run: what the second run leaves stays as it is.
-/

namespace InterfaceFile

namespace Tree

variable {t u v : Tree} {scope : NodeId} {done : List NodeId}

/-! ## The spacing of one body -/

/-- The empty lines of a body. -/
def blanks (t : Tree) (body : List NodeId) : List NodeId :=
  body.filter fun id => (t.node id).isBlank

/-- Does an empty line belong between two neighbours in the body of a scope? -/
def gapIn (t : Tree) (scope a b : NodeId) : Bool :=
  t.needsGap (scope = root) a b

/-- The number of empty lines that belong into the body of a scope. -/
def gaps (t : Tree) (scope : NodeId) : Nat :=
  countGaps (t.gapIn scope) (t.statements (t.body scope))

/-- `body` is the body of a scope with its spacing. It has used the empty lines of the scope first
    and lines with new numbers after them. -/
def Spaces (t : Tree) (scope : NodeId) (body : List NodeId) : Prop :=
  ∃ new : List NodeId, (∀ i ∈ new, t.size ≤ i) ∧
    t.gaps scope ≤ (t.blanks (t.body scope) ++ new).length ∧
    body = fillGaps (t.gapIn scope) (t.statements (t.body scope)) (t.blanks (t.body scope) ++ new)

theorem isBlank_of_size_le {id : NodeId} (h : t.size ≤ id) : (t.node id).isBlank = true := by
  rw [node, slot_of_size_le h]
  rfl

theorem isBlank_of_mem_blanks {body new : List NodeId} (fresh : ∀ i ∈ new, t.size ≤ i) :
    ∀ i ∈ t.blanks body ++ new, (t.node i).isBlank = true := by
  intro i member
  rcases List.mem_append.1 member with old | new
  · exact (List.mem_filter.1 old).2
  · exact isBlank_of_size_le (fresh i new)

theorem isBlank_of_mem_statements {body : List NodeId} {id : NodeId}
    (member : id ∈ t.statements body) : (t.node id).isBlank = false := by
  simpa using (List.mem_filter.1 member).2

theorem mem_of_mem_statements {body : List NodeId} {id : NodeId}
    (member : id ∈ t.statements body) : id ∈ body :=
  List.mem_of_mem_filter member

theorem mem_body_of_neighbours {body : List NodeId} {a b : NodeId}
    (neighbours : [a, b] <:+: t.statements body) : a ∈ body ∧ b ∈ body :=
  ⟨mem_of_mem_statements (neighbours.subset (by simp)),
    mem_of_mem_statements (neighbours.subset (by simp))⟩

/-- A body with its spacing lists what the scope has and new nodes. -/
theorem mem_fillGaps_cases {new : List NodeId} {id : NodeId}
    (listed : id ∈ fillGaps (t.gapIn scope) (t.statements (t.body scope))
      (t.blanks (t.body scope) ++ new)) : id ∈ t.body scope ∨ id ∈ new := by
  have split := (fillGaps_perm _ _ _).subset listed
  rcases List.mem_append.1 split with proper | used
  · exact .inl (mem_of_mem_statements proper)
  · exact (List.mem_append.1 (List.mem_of_mem_take used)).imp_left List.mem_of_mem_filter

namespace Spaces

variable {body : List NodeId}

/-- Spacing keeps the statements in order. -/
theorem statements_eq (h : t.Spaces scope body) :
    t.statements body = t.statements (t.body scope) := by
  obtain ⟨new, fresh, -, rfl⟩ := h
  apply filter_fillGaps
  · intro a member
    simp [isBlank_of_mem_statements member]
  · intro a member
    simp [isBlank_of_mem_blanks fresh a member]

/-- Of the empty lines at hand those that were needed are used, in order. -/
theorem blanks_eq {new : List NodeId} (fresh : ∀ i ∈ new, t.size ≤ i) :
    t.blanks (fillGaps (t.gapIn scope) (t.statements (t.body scope))
      (t.blanks (t.body scope) ++ new)) = (t.blanks (t.body scope) ++ new).take (t.gaps scope) := by
  have proper : ∀ a ∈ t.statements (t.body scope), (!(t.node a).isBlank) = true :=
    fun a member => by simp [isBlank_of_mem_statements member]
  have empty : ∀ a ∈ t.blanks (t.body scope) ++ new, (!(t.node a).isBlank) = false :=
    fun a member => by simp [isBlank_of_mem_blanks fresh a member]
  have used := filter_not_fillGaps (t.gapIn scope) proper empty
  simpa [blanks, gaps] using used

/-- There are as many empty lines as gaps. -/
theorem length_blanks (h : t.Spaces scope body) : (t.blanks body).length = t.gaps scope := by
  obtain ⟨new, fresh, enough, rfl⟩ := h
  rw [blanks_eq fresh, List.length_take, Nat.min_eq_left enough]

/-- Nothing is left of a body of empty lines. -/
theorem eq_nil_iff (h : t.Spaces scope body) : body = [] ↔ t.statements (t.body scope) = [] := by
  constructor
  · rintro rfl
    exact h.statements_eq.symm
  · obtain ⟨new, -, -, rfl⟩ := h
    intro none
    rw [none]
    rfl

end Spaces

/-! ## The run over all scopes -/

/-- New empty lines read like slots that do not exist. -/
theorem slot_allocBlanks (n : Nat) (i : NodeId) : (t.allocBlanks n).1.slot i = t.slot i := by
  by_cases inside : i < t.size
  · have bound : i < t.slots.size := inside
    simp [slot, allocBlanks, Array.getElem?_append_left bound]
  · rw [slot_of_size_le (Nat.le_of_not_lt inside), slot, allocBlanks,
      Array.getElem?_append_right (Nat.le_of_not_lt inside), Array.getElem?_replicate]
    split <;> rfl

theorem size_allocBlanks (n : Nat) : (t.allocBlanks n).1.size = t.size + n := by
  simp [allocBlanks, size]

theorem Linked.allocBlanks (h : t.Linked) (n : Nat) : (t.allocBlanks n).1.Linked :=
  h.congr (by rw [size_allocBlanks]; exact Nat.le_add_right _ _)
    (fun i => by rw [parent, slot_allocBlanks, parent]) fun i => by rw [body, slot_allocBlanks, body]

/-- The number of empty lines that a scope lacks. -/
def missing (t : Tree) (scope : NodeId) : Nat :=
  t.gaps scope - (t.blanks (t.body scope)).length

/-- The body that a scope gets when it has its turn. -/
def spacedBody (t : Tree) (scope : NodeId) : List NodeId :=
  fillGaps (t.gapIn scope) (t.statements (t.body scope))
    (t.blanks (t.body scope) ++ List.range' t.size (t.missing scope))

theorem spaceScope_eq (scope : NodeId) :
    t.spaceScope scope =
      if t.spacedBody scope = t.body scope then .ok (t.allocBlanks (t.missing scope)).1
      else (t.allocBlanks (t.missing scope)).1.replaceBody scope (t.spacedBody scope) := by
  rw [spaceScope, List.partition_eq_filter_filter]
  rfl

theorem missing_spec (scope : NodeId) :
    t.gaps scope ≤
      (t.blanks (t.body scope) ++ List.range' t.size (t.missing scope)).length := by
  simp only [List.length_append, List.length_range', missing]
  omega

/-- One scope has got its spacing and nothing else has changed. -/
structure Respaced (t t' : Tree) (scope : NodeId) : Prop where
  linked : t'.Linked
  size : t.size ≤ t'.size
  node : ∀ i, t'.node i = t.node i
  body : ∀ s, t'.body s = if s = scope then t.spacedBody scope else t.body s

theorem Linked.nodup_spacedBody (h : t.Linked) (scope : NodeId) : (t.spacedBody scope).Nodup := by
  have used := fillGaps_perm (t.gapIn scope) (t.statements (t.body scope))
    (t.blanks (t.body scope) ++ List.range' t.size (t.missing scope))
  refine used.nodup_iff.2 (List.Nodup.sublist ((List.take_sublist _ _).append_left _) ?_)
  have listed : (t.statements (t.body scope) ++ t.blanks (t.body scope)).Perm (t.body scope) := by
    refine List.perm_append_comm.trans ?_
    simpa [statements, blanks] using
      List.filter_append_perm (fun id => (t.node id).isBlank) (t.body scope)
  rw [← List.append_assoc]
  refine ((listed.append_right _).nodup_iff).2 (List.nodup_append'.2 ⟨h.nodup scope,
    List.nodup_range', fun id old new => ?_⟩)
  exact absurd (h.bounded scope id old) (Nat.not_lt.2 (List.mem_range'_1.1 new).1)

/-- A scope can be given its spacing. -/
theorem Linked.spaceScope_ok (h : t.Linked) (opens : (t.node scope).isScope = true) :
    ∃ t', t.spaceScope scope = .ok t' ∧ Respaced t t' scope := by
  have added := h.allocBlanks (t.missing scope)
  have slots := slot_allocBlanks (t := t) (t.missing scope)
  have size := size_allocBlanks (t := t) (t.missing scope)
  rw [spaceScope_eq]
  generalize (t.allocBlanks (t.missing scope)).1 = a at *
  have node : ∀ i, a.node i = t.node i := fun i => congrArg Slot.node (slots i)
  have parent : ∀ i, a.parent i = t.parent i := fun i => congrArg Slot.parent (slots i)
  have body : ∀ i, a.body i = t.body i := fun i => congrArg Slot.body (slots i)
  have larger : t.size ≤ a.size := size ▸ Nat.le_add_right _ _
  by_cases settled : t.spacedBody scope = t.body scope
  · refine ⟨a, if_pos settled, added, larger, node, fun s => ?_⟩
    rw [body]
    split
    · next same => rw [same, settled]
    · rfl
  · have inside := lt_size_of_isScope opens
    have members : ∀ id ∈ t.spacedBody scope, a.parent id = some scope ∨
        (a.parent id = none ∧ id < a.size ∧ id ∉ a.lineage scope ∧ id ≠ root) := by
      intro id listed
      rcases mem_fillGaps_cases listed with old | new
      · exact .inl ((parent id).trans ((h.parent_iff id scope).2 old))
      · obtain ⟨fresh, bound⟩ := List.mem_range'_1.1 new
        have leaf : a.body id = [] := (body id).trans (body_of_size_le fresh)
        have later : ∀ x, x < t.size → x ≠ id := fun x old => (Nat.lt_of_lt_of_le old fresh).ne
        exact .inr ⟨(parent id).trans (parent_of_size_le fresh), size ▸ bound,
          added.not_mem_lineage_of_body leaf (later scope inside), (later root h.root_lt).symm⟩
    obtain ⟨t', run, changed⟩ :=
      added.replaceBody_ok (node scope ▸ opens) (h.nodup_spacedBody scope) members
    refine ⟨t', (if_neg settled).trans run, changed.linked, larger.trans changed.size.ge,
      fun i => (changed.node i).trans (node i), fun s => ?_⟩
    rw [changed.body, body]

/-- The bodies of the scopes in `done` have their spacing. Nothing else has changed, but there may be
    new empty lines. -/
structure SpacedAt (t u : Tree) (done : List NodeId) : Prop where
  linked : u.Linked
  size : t.size ≤ u.size
  node : ∀ i, u.node i = t.node i
  kept : ∀ s, s ∉ done → u.body s = t.body s
  spaced : ∀ s ∈ done, t.Spaces s (u.body s)

/-- A scope comes before what stands inside it, so its statements still have their old bodies. -/
theorem Linked.not_mem_of_before (h : t.Linked) (before : ∀ x ∈ done, scope ∉ t.lineage x) :
    scope ∉ done ∧ ∀ c ∈ t.body scope, c ∉ done := by
  have self := h.mem_lineage_self scope
  refine ⟨fun again => before scope again self, fun c listed again => before c again ?_⟩
  exact h.mem_lineage_of_parent ((h.parent_iff c scope).2 listed) self

namespace SpacedAt

theorem statements_eq (h : SpacedAt t u done) (body : List NodeId) :
    u.statements body = t.statements body := by
  simp only [statements, h.node]

theorem blanks_eq (h : SpacedAt t u done) (body : List NodeId) : u.blanks body = t.blanks body := by
  simp only [blanks, h.node]

/-- If what stands in a body has not had its turn, the gaps are those of the beginning. -/
theorem gapIn_eq (h : SpacedAt t u done) (children : ∀ c ∈ t.body scope, c ∉ done) {a b : NodeId}
    (neighbours : [a, b] <:+: t.statements (t.body scope)) :
    u.gapIn scope a b = t.gapIn scope a b := by
  obtain ⟨ha, hb⟩ := mem_body_of_neighbours neighbours
  simp only [gapIn, needsGap, isOneLiner, h.node, h.kept a (children a ha),
    h.kept b (children b hb)]

theorem spaces_spacedBody (h : SpacedAt t u done) (own : scope ∉ done)
    (children : ∀ c ∈ t.body scope, c ∉ done) : t.Spaces scope (u.spacedBody scope) := by
  have enough := u.missing_spec scope
  have same := fillGaps_congr (fun a b => h.gapIn_eq children)
  rw [gaps, h.kept scope own, h.statements_eq, h.blanks_eq, (same []).2] at enough
  refine ⟨List.range' u.size (u.missing scope), fun i new => ?_, enough, ?_⟩
  · exact h.size.trans (List.mem_range'_1.1 new).1
  · rw [spacedBody, h.kept scope own, h.statements_eq, h.blanks_eq, (same _).1]

/-- A scope has its turn before all that stands inside it. -/
theorem step (linked : t.Linked) (h : SpacedAt t u done) (opens : (t.node scope).isScope = true)
    (before : ∀ x ∈ done, scope ∉ t.lineage x) :
    ∃ u', u.spaceScope scope = .ok u' ∧ SpacedAt t u' (done ++ [scope]) := by
  obtain ⟨own, children⟩ := linked.not_mem_of_before before
  obtain ⟨u', run, changed⟩ := h.linked.spaceScope_ok (h.node scope ▸ opens)
  refine ⟨u', run, changed.linked, h.size.trans changed.size,
    fun i => (changed.node i).trans (h.node i), fun s other => ?_, fun s member => ?_⟩
  · obtain ⟨notYet, different⟩ : s ∉ done ∧ s ≠ scope := by simpa using other
    rw [changed.body, if_neg different, h.kept s notYet]
  · rw [changed.body]
    rcases List.mem_append.1 member with earlier | now
    · have different : s ≠ scope := fun same => own (same ▸ earlier)
      rw [if_neg different]
      exact h.spaced s earlier
    · obtain rfl := List.mem_singleton.1 now
      rw [if_pos rfl]
      exact h.spaces_spacedBody own children

end SpacedAt

theorem Linked.space_ok (h : t.Linked) : ∃ t', t.space = .ok t' ∧ SpacedAt t t' t.scopes := by
  have order := h.pairwise_scopes
  rw [space]
  apply foldlM_reaches (I := fun done u => SpacedAt t u done)
  · intro done scope rest u split spaced
    have listed : scope ∈ t.scopes := by simp [split]
    rw [split, List.pairwise_append] at order
    exact spaced.step h (h.mem_scopes.1 listed).2 fun x member =>
      order.2.2 x member scope List.mem_cons_self
  · exact ⟨h, Nat.le_refl _, fun _ => rfl, fun _ _ => rfl, by simp⟩

/-! ## Runs one after the other -/

/-- Does a node open a scope without comments that holds no statement? -/
def isHollow (t : Tree) (id : NodeId) : Bool :=
  (t.node id).isScope && (t.node id).comments.isEmpty && (t.statements (t.body id)).isEmpty

/-- Does a gap between two scopes close when both have had their turn? Neither holds a statement, and
    an empty line inside one of them was the only reason for the gap. -/
def closesUp (t : Tree) (a b : NodeId) : Bool :=
  t.isHollow a && t.isHollow b && !((t.body a).isEmpty && (t.body b).isEmpty)

namespace SpacedAt

/-- Spacing lists no scope where it was not listed before. -/
theorem mem_scopes (h : t.Linked) (spaced : SpacedAt t u done) (member : scope ∈ u.scopes) :
    scope ∈ t.scopes := by
  obtain ⟨attached, opens⟩ := spaced.linked.mem_scopes.1 member
  rw [spaced.node] at opens
  refine h.mem_scopes.2 ⟨?_, opens⟩
  refine h.attached_of_links spaced.linked (P := fun id => id < t.size) ?_
    (lt_size_of_isScope opens) attached
  intro id around inside link
  have listed := (spaced.linked.parent_iff id around).1 link
  have old : id ∈ t.body around := by
    by_cases turned : around ∈ done
    · obtain ⟨new, fresh, -, eq⟩ := spaced.spaced around turned
      rcases mem_fillGaps_cases (eq ▸ listed) with old | added
      · exact old
      · exact absurd (fresh id added) (Nat.not_le.2 inside)
    · rwa [spaced.kept around turned] at listed
  have link' := (h.parent_iff id around).2 old
  exact ⟨link', h.scope_lt link'⟩

/-- A scope that has had its turn is empty if it held no statement. -/
theorem isEmpty_body (spaced : SpacedAt t u done) (turned : scope ∈ done) :
    (u.body scope).isEmpty = (t.statements (t.body scope)).isEmpty := by
  rw [Bool.eq_iff_iff, List.isEmpty_iff, List.isEmpty_iff]
  exact (spaced.spaced scope turned).eq_nil_iff

end SpacedAt

theorem Linked.mem_scopes_of_mem_body (h : t.Linked) (member : scope ∈ t.scopes) {id : NodeId}
    (listed : id ∈ t.body scope) (opens : (t.node id).isScope = true) : id ∈ t.scopes :=
  h.mem_scopes.2 ⟨h.root_mem_lineage listed (h.mem_scopes.1 member).1, opens⟩

/-! What a gap depends on, by the kinds of the two neighbours. -/

theorem isOneLiner_of_isScope {id : NodeId} (opens : (t.node id).isScope = true) :
    t.isOneLiner id = ((t.node id).comments.isEmpty && (t.body id).isEmpty) := by
  rw [isOneLiner]
  cases decl : (t.node id).decl <;> simp_all [Node.isScope, Node.scope?]

theorem isOneLiner_eq_isHollow {id : NodeId} (opens : (t.node id).isScope = true) :
    t.isOneLiner id = (t.isHollow id && (t.body id).isEmpty) := by
  rw [isOneLiner_of_isScope opens, isHollow, opens]
  cases t.body id <;> simp [statements]

theorem gapIn_of_scopes {a b : NodeId} (ha : (t.node a).isScope = true)
    (hb : (t.node b).isScope = true) :
    t.gapIn scope a b = (scope = root || !(t.isOneLiner a && t.isOneLiner b)) := by
  have plain : ∀ n : Node, n.isScope = true → n.sigs = [] ∧ n.category = .scope := by
    intro n opens
    cases decl : n.decl <;> simp_all [Node.isScope, Node.scope?, Node.sigs, Node.category]
  simp [gapIn, needsGap, ha, hb, plain _ ha, plain _ hb, Bool.or_assoc]

theorem gapIn_of_isScope_ne {a b : NodeId} (differ : (t.node a).isScope ≠ (t.node b).isScope) :
    t.gapIn scope a b = true := by
  have category : (t.node a).category ≠ (t.node b).category := by
    intro same
    have opens : ∀ n : Node, n.isScope = decide (n.category = .scope) := by
      intro n
      cases decl : n.decl with
      | call c => cases call : c.callee <;>
          simp [Node.isScope, Node.scope?, Node.category, Category.ofCallee, decl, call]
      | _ => simp [Node.isScope, Node.scope?, Node.category, decl]
    exact differ (by rw [opens, opens, same])
  simp [gapIn, needsGap, category]

/-- A gap beside a scope that is going to close up is open. -/
theorem gapIn_of_closesUp {a b : NodeId} (closes : t.closesUp a b = true) :
    t.gapIn scope a b = true := by
  simp only [closesUp, isHollow, Bool.and_eq_true] at closes
  obtain ⟨⟨⟨⟨opensA, -⟩, -⟩, ⟨opensB, -⟩, -⟩, lines⟩ := closes
  rw [gapIn_of_scopes opensA opensB, isOneLiner_of_isScope opensA, isOneLiner_of_isScope opensB]
  revert lines
  cases (t.body a).isEmpty <;> cases (t.body b).isEmpty <;> simp

namespace SpacedAt

/-- After a run the gaps are those before it but for the ones that have closed up. -/
theorem gapIn_after (h : t.Linked) (spaced : SpacedAt t u t.scopes) (member : scope ∈ t.scopes)
    {a b : NodeId} (neighbours : [a, b] <:+: t.statements (t.body scope)) :
    u.gapIn scope a b = (t.gapIn scope a b && (scope = root || !t.closesUp a b)) := by
  obtain ⟨ha, hb⟩ := mem_body_of_neighbours neighbours
  by_cases differ : (t.node a).isScope = (t.node b).isScope
  · cases opens : (t.node a).isScope with
    | true =>
      have opens' := differ ▸ opens
      have hollow : ∀ c ∈ t.body scope, (t.node c).isScope = true →
          u.isOneLiner c = t.isHollow c := by
        intro c listed opens
        rw [isOneLiner_of_isScope (spaced.node c ▸ opens), spaced.node,
          spaced.isEmpty_body (h.mem_scopes_of_mem_body member listed opens), isHollow, opens,
          Bool.true_and]
      rw [gapIn_of_scopes (spaced.node a ▸ opens) (spaced.node b ▸ opens'), hollow a ha opens,
        hollow b hb opens', gapIn_of_scopes opens opens', isOneLiner_eq_isHollow opens,
        isOneLiner_eq_isHollow opens', closesUp]
      cases t.isHollow a <;> cases t.isHollow b <;> cases (t.body a).isEmpty <;>
        cases (t.body b).isEmpty <;> simp
    | false =>
      have opens' := differ ▸ opens
      have same : ∀ c, (t.node c).isScope = false → u.isOneLiner c = t.isOneLiner c := by
        intro c other
        rw [isOneLiner, isOneLiner, spaced.node]
        cases decl : (t.node c).decl <;> simp_all [Node.isScope, Node.scope?]
      simp [gapIn, needsGap, spaced.node, same a opens, same b opens', closesUp, isHollow, opens]
  · rw [gapIn_of_isScope_ne (by rwa [spaced.node, spaced.node]), gapIn_of_isScope_ne differ]
    cases opens : (t.node a).isScope <;> simp_all [closesUp, isHollow]

/-- After a run no gap is left that is going to close up. -/
theorem closesUp_eq (h : t.Linked) (spaced : SpacedAt t u t.scopes) (member : scope ∈ t.scopes)
    {a b : NodeId} (neighbours : [a, b] <:+: t.statements (t.body scope)) :
    u.closesUp a b = false := by
  obtain ⟨ha, hb⟩ := mem_body_of_neighbours neighbours
  have settled : ∀ c ∈ t.body scope, u.isHollow c = true → (u.body c).isEmpty = true := by
    intro c listed hollow
    simp only [isHollow, Bool.and_eq_true, spaced.node, spaced.statements_eq] at hollow
    have turned := h.mem_scopes_of_mem_body member listed hollow.1.1
    rw [spaced.isEmpty_body turned, ← (spaced.spaced c turned).statements_eq]
    exact hollow.2
  rw [Bool.eq_false_iff, closesUp]
  intro closes
  simp only [Bool.and_eq_true] at closes
  simp [settled a ha closes.1.1, settled b hb closes.1.2] at closes

/-- A scope in which no gap has closed stays as it is. -/
theorem spaceScope_eq (spaced : SpacedAt t u t.scopes) (member : scope ∈ t.scopes)
    (same : ∀ a b, [a, b] <:+: t.statements (t.body scope) →
      u.gapIn scope a b = t.gapIn scope a b) : u.spaceScope scope = .ok u := by
  have spacing := spaced.spaced scope member
  have statements : u.statements (u.body scope) = t.statements (t.body scope) :=
    (spaced.statements_eq _).trans spacing.statements_eq
  have gaps : u.gaps scope = t.gaps scope := by
    rw [Tree.gaps, statements]
    exact (fillGaps_congr same []).2
  have none : u.missing scope = 0 := by
    rw [missing, gaps, spaced.blanks_eq, spacing.length_blanks, Nat.sub_self]
  have body : u.spacedBody scope = u.body scope := by
    obtain ⟨new, fresh, -, eq⟩ := spacing
    rw [spacedBody, statements, none, spaced.blanks_eq, (fillGaps_congr same _).1, eq,
      Spaces.blanks_eq fresh, List.range'_zero, List.append_nil]
    exact fillGaps_take _ _ _
  rw [Tree.spaceScope_eq, if_pos body, none, allocBlanks, Array.replicate_zero, Array.append_empty]

/-- There are fewer gaps where one has closed. -/
theorem gaps_lt (h : t.Linked) (spaced : SpacedAt t u t.scopes) (member : scope ∈ t.scopes)
    (other : scope ≠ root) {a b : NodeId} (neighbours : [a, b] <:+: t.statements (t.body scope))
    (closes : t.closesUp a b = true) : u.gaps scope < t.gaps scope := by
  rw [gaps, spaced.statements_eq, (spaced.spaced scope member).statements_eq]
  refine countGaps_lt (gapIn_of_closesUp closes) ?_ neighbours fun c d inside wide => ?_
  · rw [spaced.gapIn_after h member neighbours]
    simp [other, closes]
  · rw [spaced.gapIn_after h member inside, Bool.and_eq_true] at wide
    exact wide.1

/-- A second run changes nothing exactly if no gap has closed. -/
theorem eq_self_iff (h : t.Linked) (spaced : SpacedAt t u t.scopes) (again : SpacedAt u v u.scopes)
    (run : u.space = .ok v) :
    v = u ↔ ∀ scope ∈ u.scopes, scope ≠ root →
      ∀ a b, [a, b] <:+: t.statements (t.body scope) → t.closesUp a b = false := by
  constructor
  · rintro rfl scope member other a b neighbours
    by_contra closes
    have member' := spaced.mem_scopes h member
    have fewer := spaced.gaps_lt h member' other neighbours (by simpa using closes)
    have before := (spaced.spaced scope member').length_blanks
    have after := (again.spaced scope member).length_blanks
    rw [spaced.blanks_eq, before] at after
    omega
  · intro wide
    have same : u.space = .ok u := by
      apply foldlM_eq_self
      intro scope member
      have member' := spaced.mem_scopes h member
      refine spaced.spaceScope_eq member' fun a b neighbours => ?_
      rw [spaced.gapIn_after h member' neighbours]
      by_cases top : scope = root
      · simp [top]
      · simp [wide scope member top a b neighbours]
    exact Except.ok.inj (run.symm.trans same)

/-- What a second run leaves stays as it is. -/
theorem space_eq (h : t.Linked) (spaced : SpacedAt t u t.scopes) (again : SpacedAt u v u.scopes) :
    v.space = .ok v := by
  apply foldlM_eq_self
  intro scope member
  have member' := again.mem_scopes spaced.linked member
  refine again.spaceScope_eq member' fun a b neighbours => ?_
  have member'' := spaced.mem_scopes h member'
  have neighbours' : [a, b] <:+: t.statements (t.body scope) := by
    rwa [spaced.statements_eq, (spaced.spaced scope member'').statements_eq] at neighbours
  rw [again.gapIn_after spaced.linked member' neighbours,
    spaced.closesUp_eq h member'' neighbours', Bool.not_false, Bool.or_true, Bool.and_true]

end SpacedAt

end Tree

/-- Where the links agree a tree can be given its spacing again and again, and after two runs nothing
    changes any more. One run is enough exactly if no empty line that made a scope take more than one
    line was all that kept it apart from a neighbour. -/
theorem spacing_settles_after_two_runs {t : Tree} (h : t.Linked) :
    ∃ t₁ t₂, t.space = .ok t₁ ∧ t₁.space = .ok t₂ ∧ t₂.space = .ok t₂ ∧
      (t₂ = t₁ ↔ ∀ scope ∈ t₁.scopes, scope ≠ Tree.root →
        ∀ a b, [a, b] <:+: t.statements (t.body scope) → t.closesUp a b = false) := by
  obtain ⟨t₁, run, spaced⟩ := h.space_ok
  obtain ⟨t₂, run', again⟩ := spaced.linked.space_ok
  exact ⟨t₁, t₂, run, run', spaced.space_eq h again, spaced.eq_self_iff h again run'⟩

/-- A module with two classes, one of which holds an empty line. -/
def paddedClass : Tree :=
  let t := (Edit.push 0 (.moduleDef "M")).apply .empty
  let t := (Edit.push 1 (.classDef "B" none)).apply t
  let t := (Edit.push 2 .blank).apply t
  (Edit.push 1 (.classDef "C" none)).apply t

theorem linked_paddedClass : paddedClass.Linked := by
  have one := Built.empty.edit (.push 0 (.moduleDef "M")) (by decide)
  have two := one.edit (.push 1 (.classDef "B" none)) (by decide)
  have three := two.edit (.push 2 .blank) (by decide)
  exact (three.edit (.push 1 (.classDef "C" none)) (by decide)).linked

theorem spacing_settles_after_two_runs_paddedClass :
    paddedClass.Linked ∧ ∃ t₁ t₂, paddedClass.space = .ok t₁ ∧ t₁.space = .ok t₂ ∧
      t₂.space = .ok t₂ ∧ t₂ ≠ t₁ := by
  have linked := linked_paddedClass
  obtain ⟨t₁, t₂, run, run', settled, same⟩ := spacing_settles_after_two_runs linked
  have scopes : (paddedClass.space.map Tree.scopes) = .ok [0, 1, 2, 4] := by decide
  rw [run] at scopes
  have scopes : t₁.scopes = [0, 1, 2, 4] := Except.ok.inj scopes
  refine ⟨linked, t₁, t₂, run, run', settled, fun eq => ?_⟩
  have narrow := same.1 eq 1 (by simp [scopes]) (by decide) 2 4 (by decide)
  exact absurd narrow (by decide)

/-- The second run can take an empty line away that the first one has put in. -/
theorem second_spacing_can_change :
    paddedClass.Linked ∧ ∃ t₁ t₂, paddedClass.space = .ok t₁ ∧ t₁.space = .ok t₂ ∧
      t₁.body 1 = [2, 5, 4] ∧ t₂.body 1 = [2, 4] ∧ t₂ ≠ t₁ := by
  obtain ⟨t₁, run, spaced⟩ := linked_paddedClass.space_ok
  obtain ⟨t₂, run', -⟩ := spaced.linked.space_ok
  have first : (paddedClass.space.map fun t => t.body 1) = .ok [2, 5, 4] := by decide
  have second : ((paddedClass.space.bind Tree.space).map fun t => t.body 1) = .ok [2, 4] := by
    decide
  rw [run] at first second
  rw [Except.bind, run'] at second
  have body : t₁.body 1 = [2, 5, 4] := Except.ok.inj first
  have body' : t₂.body 1 = [2, 4] := Except.ok.inj second
  refine ⟨linked_paddedClass, t₁, t₂, run, run', body, body', fun same => ?_⟩
  rw [same, body] at body'
  exact absurd body' (by decide)

end InterfaceFile
