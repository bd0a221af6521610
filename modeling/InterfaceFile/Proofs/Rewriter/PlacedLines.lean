import InterfaceFile.Proofs.Rewriter.Arranged
import Mathlib.Algebra.Ring.Nat
import Mathlib.Data.List.Chain

/-!
# Where empty lines stand

After a run of spacing the empty lines of a scope say what the statements beside them are: one stands
between two neighbours exactly if they differ in family, carry signatures or take more than one line,
as the tree had it before the run. New lines are made only where a scope has too few of its own.
-/

namespace InterfaceFile

/-! ## Filled gaps -/

section Filled

variable {α : Type} {gap : α → α → Bool} {p : α → Bool}

/-- The first statement stays in front. -/
theorem head?_fillGaps (gap : α → α → Bool) (statements blanks : List α) :
    (fillGaps gap statements blanks).head? = statements.head? := by
  match statements with
  | [] | [_] => rfl
  | a :: b :: rest => rw [fillGaps_cons_cons, List.head?_cons, List.head?_cons]

/-- The last statement stays at the end. -/
theorem getLast?_fillGaps (gap : α → α → Bool) : ∀ statements blanks : List α,
    (fillGaps gap statements blanks).getLast? = statements.getLast?
  | [], _ | [_], _ => rfl
  | a :: b :: rest, blanks => by
    have later := getLast?_fillGaps gap (b :: rest) (blanks.drop (if gap a b then 1 else 0))
    obtain ⟨last, found⟩ : ∃ last, (b :: rest).getLast? = some last :=
      ⟨_, List.getLast?_eq_some_getLast (List.cons_ne_nil b rest)⟩
    rw [found] at later
    rw [fillGaps_cons_cons, ← List.cons_append, List.getLast?_append, later,
      List.getLast?_cons_cons, found]
    rfl

/-- No two lines come together. -/
theorem isChain_fillGaps (gap : α → α → Bool) : ∀ {statements : List α} (blanks : List α),
    (∀ a ∈ statements, p a = true) →
      (fillGaps gap statements blanks).IsChain fun a b => p a = true ∨ p b = true
  | [], _, _ => .nil
  | [a], _, _ => .singleton a
  | a :: b :: rest, blanks, proper => by
    obtain ⟨here, after⟩ := List.forall_mem_cons.1 proper
    have next : p b = true := after b List.mem_cons_self
    have later := isChain_fillGaps gap (blanks.drop (if gap a b then 1 else 0)) after
    have first : ∀ c ∈ (fillGaps gap (b :: rest)
        (blanks.drop (if gap a b then 1 else 0))).head?, c = b := by
      intro c given
      rw [head?_fillGaps, List.head?_cons] at given
      exact (Option.some.inj given).symm
    rw [fillGaps_cons_cons]
    cases used : blanks.take (if gap a b then 1 else 0) with
    | nil => exact List.isChain_cons.2 ⟨fun c _ => .inl here, later⟩
    | cons x more =>
      -- At most one line is taken.
      have one : more = [] := by
        have short := congrArg List.length used
        simp only [List.length_take, List.length_cons] at short
        rw [List.eq_nil_iff_length_eq_zero]
        split at short <;> omega
      subst one
      have inner : (x :: fillGaps gap (b :: rest)
          (blanks.drop (if gap a b then 1 else 0))).IsChain fun a b => p a = true ∨ p b = true :=
        List.isChain_cons.2 ⟨fun c given => .inr (first c given ▸ next), later⟩
      exact List.isChain_cons.2 ⟨fun c _ => .inl here, inner⟩

/-- In a gap stands a line, and neighbours without a gap stay neighbours. -/
theorem neighbours_fillGaps {a b : α} : ∀ {statements blanks : List α},
    countGaps gap statements ≤ blanks.length → [a, b] <:+: statements →
      (gap a b = true → ∃ x ∈ blanks, [a, x, b] <:+: fillGaps gap statements blanks) ∧
        (gap a b = false → [a, b] <:+: fillGaps gap statements blanks)
  | [], _, _, neighbours | [_], _, _, neighbours => by
    have short := neighbours.length_le
    simp at short
  | c :: d :: rest, blanks, enough, neighbours => by
    rw [countGaps] at enough
    rw [fillGaps_cons_cons]
    obtain ⟨tail, split⟩ : ∃ tail, fillGaps gap (d :: rest)
        (blanks.drop (if gap c d then 1 else 0)) = d :: tail := by
      apply List.head?_eq_some_iff.1
      rw [head?_fillGaps, List.head?_cons]
    rcases List.infix_cons_iff.1 neighbours with first | inside
    · obtain ⟨rest', same⟩ := first
      obtain ⟨rfl, rfl, -⟩ : a = c ∧ b = d ∧ rest' = rest := by simpa using same
      rw [split]
      constructor
      · intro wide
        rw [wide, if_pos rfl] at enough ⊢
        obtain ⟨x, more, rfl⟩ := List.exists_cons_of_length_pos (l := blanks) (by omega)
        exact ⟨x, List.mem_cons_self, [], tail, rfl⟩
      · intro narrow
        rw [narrow]
        exact ⟨[], tail, rfl⟩
    · have fits : countGaps gap (d :: rest) ≤ (blanks.drop (if gap c d then 1 else 0)).length := by
        rw [List.length_drop]
        omega
      have later := neighbours_fillGaps fits inside
      have outside : ∀ {l : List α}, l <:+: fillGaps gap (d :: rest)
          (blanks.drop (if gap c d then 1 else 0)) →
          l <:+: c :: (blanks.take (if gap c d then 1 else 0) ++
            fillGaps gap (d :: rest) (blanks.drop (if gap c d then 1 else 0))) :=
        fun found => List.infix_cons (found.trans (List.suffix_append _ _).isInfix)
      refine ⟨fun wide => ?_, fun narrow => outside (later.2 narrow)⟩
      obtain ⟨x, member, found⟩ := later.1 wide
      exact ⟨x, List.mem_of_mem_drop member, outside found⟩

/-- What comes after an item of a list without repetitions is one item. -/
theorem eq_of_neighbours {l : List α} (distinct : l.Nodup) {a b c : α} (one : [a, b] <:+: l)
    (two : [a, c] <:+: l) : b = c := by
  induction l with
  | nil =>
    have short := one.length_le
    simp at short
  | cons x l ih =>
    obtain ⟨fresh, distinct⟩ := List.nodup_cons.1 distinct
    rcases List.infix_cons_iff.1 one with first | inside <;>
      rcases List.infix_cons_iff.1 two with first' | inside'
    · obtain ⟨rest, rfl⟩ := (List.cons_prefix_cons.1 first).2
      obtain ⟨rest', same⟩ := (List.cons_prefix_cons.1 first').2
      exact (List.cons.inj same).1.symm
    · obtain ⟨rfl, -⟩ := List.cons_prefix_cons.1 first
      exact absurd (inside'.subset List.mem_cons_self) fresh
    · obtain ⟨rfl, -⟩ := List.cons_prefix_cons.1 first'
      exact absurd (inside.subset List.mem_cons_self) fresh
    · exact ih distinct inside inside'

/-- Two items that another one stands between are no neighbours. -/
theorem not_neighbours_of_parted {l : List α} (distinct : l.Nodup) {a b line : α} (other : line ≠ b)
    (parted : [a, line, b] <:+: l) : ¬ [a, b] <:+: l := by
  intro joined
  have before : [a, line] <:+: l := (List.prefix_append [a, line] [b]).isInfix.trans parted
  exact other (eq_of_neighbours distinct before joined)

end Filled

namespace Tree

variable {t u : Tree} {scope a b : NodeId} {done : List NodeId}

/-! ## What belongs between two statements -/

/-- The statement has comments, statements inside or a parameter with comments. -/
def IsLong (t : Tree) (id : NodeId) : Prop :=
  (t.node id).comments ≠ [] ∨ ((t.node id).isScope = true ∧ t.body id ≠ []) ∨
    ∃ m, (t.node id).decl = .method m ∧ ∃ p ∈ m.params, p.comments ≠ []

/-- An empty line belongs between two neighbours in the body of a scope. -/
def Apart (t : Tree) (scope a b : NodeId) : Prop :=
  (t.node a).sigs ≠ [] ∨ (t.node b).sigs ≠ [] ∨
    (scope = root ∧ (t.node a).isScope = true ∧ (t.node b).isScope = true) ∨
    (t.node a).category ≠ (t.node b).category ∨ t.IsLong a ∨ t.IsLong b

theorem isOneLiner_eq_false_iff {id : NodeId} : t.isOneLiner id = false ↔ t.IsLong id := by
  rw [isOneLiner, IsLong]
  cases decl : (t.node id).decl <;>
    simp [Node.isScope, Node.scope?, decl, ← imp_iff_not_or, List.all_eq_false, -not_and]

theorem gapIn_iff : t.gapIn scope a b = true ↔ t.Apart scope a b := by
  rw [gapIn, needsGap, Apart, ← isOneLiner_eq_false_iff, ← isOneLiner_eq_false_iff]
  simp [or_assoc, and_assoc]

/-- The body of a scope in `u` is the one in `t` with an empty line wherever one belongs, and nowhere
    else. -/
structure Separated (t u : Tree) (scope : NodeId) : Prop where
  statements : u.statements (u.body scope) = t.statements (t.body scope)
  first : ∀ id ∈ (u.body scope).head?, (u.node id).isBlank = false
  last : ∀ id ∈ (u.body scope).getLast?, (u.node id).isBlank = false
  single : (u.body scope).IsChain fun a b => (u.node a).isBlank = false ∨ (u.node b).isBlank = false
  /-- An empty line parts two neighbours. -/
  apart : ∀ a b, [a, b] <:+: t.statements (t.body scope) →
    ((∃ line, (u.node line).isBlank = true ∧ [a, line, b] <:+: u.body scope) ↔ t.Apart scope a b)
  /-- Two neighbours stand together. -/
  together : ∀ a b, [a, b] <:+: t.statements (t.body scope) →
    ([a, b] <:+: u.body scope ↔ ¬ t.Apart scope a b)

theorem SpacedAt.separated (spaced : SpacedAt t u done) (turned : scope ∈ done) :
    t.Separated u scope := by
  have spacing := spaced.spaced scope turned
  have statements := (spaced.statements_eq _).trans spacing.statements_eq
  have distinct := spaced.linked.nodup scope
  obtain ⟨new, fresh, enough, body⟩ := spacing
  have proper : ∀ id ∈ t.statements (t.body scope), (!(u.node id).isBlank) = true := by
    intro id member
    rw [spaced.node, isBlank_of_mem_statements member]
    rfl
  have empty : ∀ id ∈ t.blanks (t.body scope) ++ new, (u.node id).isBlank = true := by
    intro id member
    rw [spaced.node, isBlank_of_mem_blanks fresh id member]
  have wide : ∀ {a b}, [a, b] <:+: t.statements (t.body scope) → t.Apart scope a b →
      ∃ line, (u.node line).isBlank = true ∧ [a, line, b] <:+: u.body scope := by
    intro a b neighbours apart
    obtain ⟨line, member, found⟩ := (neighbours_fillGaps enough neighbours).1 (gapIn_iff.2 apart)
    exact ⟨line, empty line member, body ▸ found⟩
  have narrow : ∀ {a b}, [a, b] <:+: t.statements (t.body scope) → ¬ t.Apart scope a b →
      [a, b] <:+: u.body scope := by
    intro a b neighbours together
    have closed : t.gapIn scope a b = false := by
      rw [Bool.eq_false_iff]
      exact fun open' => together (gapIn_iff.1 open')
    exact body ▸ (neighbours_fillGaps enough neighbours).2 closed
  -- After `a` comes either the line or `b`, so a body cannot show both.
  have exclusive : ∀ {a b line}, [a, b] <:+: t.statements (t.body scope) →
      (u.node line).isBlank = true → [a, line, b] <:+: u.body scope → ¬ [a, b] <:+: u.body scope := by
    intro a b line neighbours blank parted
    have present := proper b (neighbours.subset (by simp))
    refine not_neighbours_of_parted distinct ?_ parted
    rintro rfl
    rw [blank] at present
    cases present
  constructor
  · exact statements
  · intro id given
    rw [body, head?_fillGaps] at given
    simpa using proper id (List.mem_of_mem_head? given)
  · intro id given
    rw [body, getLast?_fillGaps] at given
    simpa using proper id (List.mem_of_mem_getLast? given)
  · rw [body]
    simpa using isChain_fillGaps (t.gapIn scope) (t.blanks (t.body scope) ++ new) proper
  · intro a b neighbours
    refine ⟨fun ⟨line, blank, parted⟩ => ?_, wide neighbours⟩
    by_contra together
    exact exclusive neighbours blank parted (narrow neighbours together)
  · intro a b neighbours
    refine ⟨fun joined apart => ?_, narrow neighbours⟩
    obtain ⟨line, blank, parted⟩ := wide neighbours apart
    exact exclusive neighbours blank parted joined

/-! ## New lines -/

theorem size_of_spaceScope (run : t.spaceScope scope = .ok u) : u.size = t.size + t.missing scope := by
  rw [spaceScope_eq] at run
  split at run
  · cases run
    exact size_allocBlanks _
  · rw [eq_of_replaceBody run, size_setBody, size_setParents, size_setParents, size_allocBlanks]

/-- A scope that has its turn lacks as many lines as at the beginning. -/
theorem SpacedAt.missing_eq (spaced : SpacedAt t u done) (own : scope ∉ done)
    (children : ∀ c ∈ t.body scope, c ∉ done) : u.missing scope = t.missing scope := by
  have same := fillGaps_congr (fun a b => spaced.gapIn_eq children)
  rw [missing, missing, gaps, gaps, spaced.kept scope own, spaced.statements_eq, spaced.blanks_eq,
    (same []).2]

/-- A run makes the lines that the scopes lack. -/
theorem Linked.size_of_space (h : t.Linked) (run : t.space = .ok u) :
    u.size = t.size + (t.scopes.map t.missing).sum := by
  have order := h.pairwise_scopes
  obtain ⟨u', run', -, size⟩ : ∃ u', t.space = .ok u' ∧ SpacedAt t u' t.scopes ∧
      u'.size = t.size + (t.scopes.map t.missing).sum := by
    rw [space]
    apply foldlM_reaches
      (I := fun done u => SpacedAt t u done ∧ u.size = t.size + (done.map t.missing).sum)
    · rintro done scope rest u split ⟨spaced, size⟩
      have listed : scope ∈ t.scopes := by simp [split]
      rw [split, List.pairwise_append] at order
      have before : ∀ x ∈ done, scope ∉ t.lineage x :=
        fun x member => order.2.2 x member scope List.mem_cons_self
      obtain ⟨own, children⟩ := h.not_mem_of_before before
      obtain ⟨u', ran, next⟩ := spaced.step h (h.mem_scopes.1 listed).2 before
      refine ⟨u', ran, next, ?_⟩
      rw [size_of_spaceScope ran, spaced.missing_eq own children, size, List.map_append,
        List.sum_append, List.map_singleton, List.sum_singleton, Nat.add_assoc]
    · exact ⟨⟨h, Nat.le_refl _, fun _ => rfl, fun _ _ => rfl, by simp⟩, rfl⟩
  obtain rfl := Except.ok.inj (run'.symm.trans run)
  exact size

end Tree

/-- Where the links agree a tree can be given its spacing. Every scope from the root down keeps its
    statements in order and has an empty line between two of them exactly if one belongs there, judged
    by the tree before. No node changes, other bodies stay as they are, and a new line is made only for
    a scope that needs more lines than it had. -/
theorem spacing_places_lines_exactly {t : Tree} (h : t.Linked) :
    ∃ u, t.space = .ok u ∧ u.Linked ∧ (∀ scope ∈ t.scopes, t.Separated u scope) ∧
      (∀ scope, scope ∉ t.scopes → u.body scope = t.body scope) ∧
      (∀ id, u.node id = t.node id) ∧ u.strictness = t.strictness ∧
      u.size = t.size + (t.scopes.map fun scope =>
        (u.blanks (u.body scope)).length - (t.blanks (t.body scope)).length).sum := by
  obtain ⟨u, run, spaced⟩ := h.space_ok
  refine ⟨u, run, spaced.linked, fun scope member => spaced.separated member, spaced.kept,
    spaced.node, Tree.strictness_space run, ?_⟩
  rw [h.size_of_space run]
  congr 2
  refine List.map_congr_left fun scope member => ?_
  rw [Tree.missing, spaced.blanks_eq, (spaced.spaced scope member).length_blanks]

theorem spacing_places_lines_exactly_paddedClass :
    paddedClass.Linked ∧ ∃ u, paddedClass.space = .ok u ∧ u.body 1 = [2, 5, 4] ∧
      paddedClass.Separated u 1 ∧ paddedClass.Apart 1 2 4 ∧ u.body 2 = [] ∧
      paddedClass.size = 5 ∧ u.size = 6 := by
  have linked := linked_paddedClass
  obtain ⟨u, run, -, separated, -, -, -, -⟩ := spacing_places_lines_exactly linked
  have outcome : paddedClass.space.map (fun t => (t.body 1, t.body 2, t.size, (t.node 5).isBlank)) =
      .ok ([2, 5, 4], [], 6, true) := by decide
  rw [run] at outcome
  obtain ⟨body, inner, size, line⟩ : u.body 1 = [2, 5, 4] ∧ u.body 2 = [] ∧ u.size = 6 ∧
      (u.node 5).isBlank = true := by
    simpa using Except.ok.inj outcome
  have here := separated 1 (by decide)
  have apart : paddedClass.Apart 1 2 4 := (here.apart 2 4 (by decide)).1 ⟨5, line, by rw [body]⟩
  exact ⟨linked, u, run, body, here, apart, inner, by decide, size⟩

end InterfaceFile
