import InterfaceFile.Proofs.Tree.Bodies
import InterfaceFile.Tree.Sort

/-!
# Sections of a body

Visibility markers cut a body into sections. To sort a body is to sort each section stably and to
leave the markers between the same sections. `SortsSections` says this without saying how it is done.
What is sorted stays as it is when it is sorted again, and every statement keeps the markers that
stand before it.
-/

namespace InterfaceFile

/-! ## The order of statements -/

/-- Where a statement belongs in a sorted section. -/
structure SortPlace where
  rank : Nat
  category : Category
  name : String
  deriving DecidableEq, Repr

namespace SortPlace

/-- The order of places: by rank, then by category, then by name. -/
def AtMost (a b : SortPlace) : Prop :=
  a.rank < b.rank ∨ a.rank = b.rank ∧
    (a.category.order < b.category.order ∨ a.category = b.category ∧ a.name ≤ b.name)

end SortPlace

/-- The place of a node. Calls come first, then scopes and constants, then attributes, then methods.
    Properties have no name here, so that they stay in the order in which they are declared. -/
def Node.sortPlace (n : Node) : SortPlace :=
  match n.decl with
  | .call c => ⟨0, .ofCallee c.callee, if c.isProperty then "" else c.render {}⟩
  | .scope s => ⟨1, .const, s.name⟩
  | .const c => ⟨1, .const, c.name⟩
  | .attr a => ⟨2, .attr, Text.join ", " a.names⟩
  | .method m => ⟨3, .method, m.name⟩
  | .blank => ⟨4, .blank, ""⟩

theorem Category.order_inj {a b : Category} : a.order = b.order ↔ a = b := by
  constructor
  · intro same
    cases a <;> cases b <;> first | rfl | cases same
  · exact congrArg order

/-- The rank that the statements of a category have. -/
def Category.rank : Category → Nat
  | mixin | helper | typeMember | structField | visibility | call => 0
  | const | scope => 1
  | attr => 2
  | method => 3
  | blank => 4

theorem Category.rank_mono {a b : Category} (h : a.order < b.order) : a.rank ≤ b.rank := by
  cases a <;> cases b <;> simp [order] at h <;> decide

theorem Node.rank_sortPlace (n : Node) : n.sortPlace.rank = n.sortPlace.category.rank := by
  rw [sortPlace]
  cases n.decl with
  | call c => cases hc : c.callee <;> simp [hc, Category.ofCallee, Category.rank]
  | _ => rfl

namespace SortKey

theorem le_iff {a b : SortKey} : a.le b = true ↔ a.category.order < b.category.order ∨
    a.category = b.category ∧ a.name ≤ b.name := by
  simp only [le, Bool.or_eq_true, Bool.and_eq_true, Bool.not_eq_true', decide_eq_true_eq,
    decide_eq_false_iff_not, Category.order_inj, String.not_lt]

theorem le_trans (a b c : SortKey) (h : a.le b = true) (k : b.le c = true) : a.le c = true := by
  rw [le_iff] at h k ⊢
  rcases h with before | ⟨same, name⟩
  · rcases k with before' | ⟨same', -⟩
    · exact .inl (Nat.lt_trans before before')
    · exact .inl (same' ▸ before)
  · rcases k with before' | ⟨same', name'⟩
    · exact .inl (same ▸ before')
    · exact .inr ⟨same.trans same', String.le_trans name name'⟩

theorem le_total (a b : SortKey) : (a.le b || b.le a) = true := by
  rw [Bool.or_eq_true, le_iff, le_iff]
  rcases Nat.lt_trichotomy a.category.order b.category.order with before | same | after
  · exact .inl (.inl before)
  · have category := Category.order_inj.1 same
    rcases String.le_total a.name b.name with name | name
    · exact .inl (.inr ⟨category, name⟩)
    · exact .inr (.inr ⟨category.symm, name⟩)
  · exact .inr (.inl after)

theorem ofNode_eq (n : Node) : ofNode n = ⟨n.sortPlace.category, n.sortPlace.name⟩ := by
  rw [ofNode, Node.sortPlace]
  cases n.decl <;> rfl

/-- Keys are compared as places are: the category tells the rank. -/
theorem le_ofNode (a b : Node) :
    (ofNode a).le (ofNode b) = true ↔ a.sortPlace.AtMost b.sortPlace := by
  rw [le_iff, ofNode_eq, ofNode_eq, SortPlace.AtMost, a.rank_sortPlace, b.rank_sortPlace]
  constructor
  · rintro (before | ⟨same, name⟩)
    · rcases Nat.lt_or_eq_of_le (Category.rank_mono before) with less | equal
      · exact .inl less
      · exact .inr ⟨equal, .inl before⟩
    · exact .inr ⟨congrArg Category.rank same, .inr ⟨same, name⟩⟩
  · rintro (less | ⟨-, order⟩)
    · left
      by_contra late
      rcases Nat.lt_or_eq_of_le (Nat.not_lt.1 late) with after | equal
      · exact Nat.not_lt.2 (Category.rank_mono after) less
      · have same : b.sortPlace.category = a.sortPlace.category := Category.order_inj.1 equal
        exact Nat.lt_irrefl _ (same ▸ less)
    · exact order

end SortKey

namespace Tree

variable {t : Tree}

/-! ## What sorting is -/

/-- `sorted` has the statements of `run` in order, those with one place in the order in which they
    were. -/
structure StableSort (t : Tree) (run sorted : List NodeId) : Prop where
  perm : sorted.Perm run
  ordered : sorted.Pairwise fun a b => (t.node a).sortPlace.AtMost (t.node b).sortPlace
  stable : ∀ place, sorted.filter (fun id => (t.node id).sortPlace = place) =
    run.filter fun id => (t.node id).sortPlace = place

/-- Each longest run of statements without a marker is sorted, and the markers stay between them. -/
inductive SortsSections (t : Tree) : List NodeId → List NodeId → Prop
  | last {run sorted : List NodeId} (plain : ∀ id ∈ run, (t.node id).isMarker = false)
      (sorts : t.StableSort run sorted) : SortsSections t run sorted
  | marker {run sorted rest rest' : List NodeId} {id : NodeId}
      (plain : ∀ id ∈ run, (t.node id).isMarker = false) (sorts : t.StableSort run sorted)
      (mark : (t.node id).isMarker = true) (later : SortsSections t rest rest') :
      SortsSections t (run ++ id :: rest) (sorted ++ id :: rest')

theorem stableSort_sortSection (run : List NodeId) : t.StableSort run (t.sortSection run) := by
  let le (a b : NodeId) : Bool := (SortKey.ofNode (t.node a)).le (.ofNode (t.node b))
  have trans : ∀ a b c, le a b = true → le b c = true → le a c = true :=
    fun a b c => SortKey.le_trans _ _ _
  have total : ∀ a b, (le a b || le b a) = true := fun a b => SortKey.le_total _ _
  have perm : (t.sortSection run).Perm run := List.mergeSort_perm run le
  refine ⟨perm, ?_, fun place => ?_⟩
  · have ordered : (t.sortSection run).Pairwise fun a b => le a b = true :=
      List.pairwise_mergeSort trans total run
    exact ordered.imp fun h => (SortKey.le_ofNode _ _).1 h
  · -- Statements with one place are in order already, so sorting keeps them as a sublist.
    let here (id : NodeId) : Bool := (t.node id).sortPlace = place
    have tied : (run.filter here).Pairwise fun a b => le a b = true := by
      refine List.pairwise_of_forall_mem_list fun a ha b hb => ?_
      have pa : (t.node a).sortPlace = place := by simpa [here] using (List.mem_filter.1 ha).2
      have pb : (t.node b).sortPlace = place := by simpa [here] using (List.mem_filter.1 hb).2
      refine (SortKey.le_ofNode _ _).2 ?_
      rw [pa, pb]
      exact .inr ⟨rfl, .inr ⟨rfl, String.le_refl _⟩⟩
    have kept : (run.filter here).Sublist (t.sortSection run) :=
      List.sublist_mergeSort trans total tied List.filter_sublist
    have inside := kept.filter here
    rw [List.filter_filter] at inside
    simp only [Bool.and_self] at inside
    exact (inside.eq_of_length (perm.filter here).length_eq.symm).symm

theorem sortSection_pair (a b : NodeId) : t.sortSection [a, b] =
    if (SortKey.ofNode (t.node a)).le (.ofNode (t.node b)) then [a, b] else [b, a] := by
  simp [sortSection, List.mergeSort, List.merge]

theorem StableSort.sortSection_eq {run sorted : List NodeId} (h : t.StableSort run sorted) :
    t.sortSection sorted = sorted :=
  List.mergeSort_of_pairwise (h.ordered.imp fun k => (SortKey.le_ofNode _ _).2 k)

theorem StableSort.plain {run sorted : List NodeId} (h : t.StableSort run sorted)
    (plain : ∀ id ∈ run, (t.node id).isMarker = false) :
    ∀ id ∈ sorted, (t.node id).isMarker = false :=
  fun id member => plain id (h.perm.mem_iff.1 member)

/-! ## Sorted bodies -/

/-- Statements that are no markers are gathered one by one. -/
theorem sortFrom_append {run : List NodeId} (gathered rest : List NodeId)
    (plain : ∀ id ∈ run, (t.node id).isMarker = false)
    (proper : ∀ id ∈ run, (t.node id).isBlank = false) :
    t.sortFrom gathered (run ++ rest) = t.sortFrom (run.reverse ++ gathered) rest := by
  induction run generalizing gathered with
  | nil => rfl
  | cons id run ih =>
    obtain ⟨plainHere, plainLater⟩ := List.forall_mem_cons.1 plain
    obtain ⟨properHere, properLater⟩ := List.forall_mem_cons.1 proper
    rw [List.cons_append, sortFrom, if_neg (by simp [properHere]), if_neg (by simp [plainHere]),
      ih _ plainLater properLater]
    simp

theorem sortsSections_sortFrom {gathered : List NodeId} (body : List NodeId)
    (plain : ∀ id ∈ gathered, (t.node id).isMarker = false) :
    t.SortsSections (gathered.reverse ++ t.statements body) (t.sortFrom gathered body) := by
  have sorts := fun run => stableSort_sortSection (t := t) run
  have plainRun : ∀ id ∈ gathered.reverse, (t.node id).isMarker = false :=
    fun id member => plain id (List.mem_reverse.1 member)
  induction body generalizing gathered with
  | nil =>
    rw [statements, List.filter_nil, List.append_nil, sortFrom]
    exact .last plainRun (sorts _)
  | cons id body ih =>
    rw [sortFrom]
    cases blank : (t.node id).isBlank with
    | true =>
      rw [if_pos rfl, statements, List.filter_cons_of_neg (by simp [blank])]
      exact ih plain plainRun
    | false =>
      rw [if_neg (by simp), statements, List.filter_cons_of_pos (by simp [blank])]
      cases mark : (t.node id).isMarker with
      | true =>
        have none : ∀ i ∈ ([] : List NodeId), (t.node i).isMarker = false := by simp
        rw [if_pos rfl]
        exact .marker plainRun (sorts _) mark (ih none none)
      | false =>
        have more : ∀ i ∈ id :: gathered, (t.node i).isMarker = false :=
          List.forall_mem_cons.2 ⟨mark, plain⟩
        rw [if_neg (by simp)]
        have rest := ih more fun i member => more i (List.mem_reverse.1 member)
        rwa [List.reverse_cons, List.append_assoc] at rest

/-- Sorting changes nothing where all sections are in order and no line is empty. -/
theorem SortsSections.sortFrom_eq {xs ys : List NodeId} (h : t.SortsSections xs ys)
    (proper : ∀ id ∈ ys, (t.node id).isBlank = false) : t.sortFrom [] ys = ys := by
  induction h with
  | @last run sorted plain sorts =>
    have gather := sortFrom_append [] [] (sorts.plain plain) proper
    rw [List.append_nil, List.append_nil] at gather
    rw [gather, sortFrom, List.reverse_reverse, sorts.sortSection_eq]
  | @marker run sorted rest rest' id plain sorts mark later ih =>
    obtain ⟨properRun, properRest⟩ := List.forall_mem_append.1 proper
    obtain ⟨properHere, properLater⟩ := List.forall_mem_cons.1 properRest
    rw [sortFrom_append [] _ (sorts.plain plain) properRun, List.append_nil, sortFrom,
      if_neg (by simp [properHere]), if_pos mark, List.reverse_reverse, sorts.sortSection_eq,
      ih properLater]

/-- A sorted body has the statements of the body. -/
theorem SortsSections.perm {xs ys : List NodeId} (h : t.SortsSections xs ys) : ys.Perm xs := by
  induction h with
  | last plain sorts => exact sorts.perm
  | marker plain sorts mark later ih => exact sorts.perm.append (ih.cons _)

theorem sortsSections_sortedBody (scope : NodeId) :
    t.SortsSections (t.statements (t.body scope)) (t.sortedBody scope) := by
  have none : ∀ id ∈ ([] : List NodeId), (t.node id).isMarker = false := by simp
  exact sortsSections_sortFrom (t.body scope) none

theorem mem_sortedBody {scope id : NodeId} :
    id ∈ t.sortedBody scope ↔ id ∈ t.body scope ∧ (t.node id).isBlank = false := by
  rw [(sortsSections_sortedBody scope).perm.mem_iff]
  simp [statements]

theorem sortFrom_sortedBody (scope : NodeId) :
    t.sortFrom [] (t.sortedBody scope) = t.sortedBody scope :=
  (sortsSections_sortedBody scope).sortFrom_eq fun _ member => (mem_sortedBody.1 member).2

/-! ## The marker before a statement -/

/-- Does the node set the visibility of the statements after it? -/
def isBareMarker (t : Tree) (id : NodeId) : Bool :=
  (t.node id).sectionMarker?.isSome

/-- The last bare visibility marker before a statement of a body. -/
def markerBefore (t : Tree) (body : List NodeId) (id : NodeId) : Option NodeId :=
  ((body.takeWhile (· ≠ id)).filter t.isBareMarker).getLast?

theorem isMarker_of_isBareMarker {id : NodeId} (bare : t.isBareMarker id = true) :
    (t.node id).isMarker = true := by
  rw [isBareMarker, Node.sectionMarker?] at bare
  rw [Node.isMarker, Node.category]
  cases hd : (t.node id).decl with
  | call c =>
    rw [hd] at bare
    cases hc : c.callee with
    | visibility level => simp [hc, Category.ofCallee]
    | _ => simp [Call.sectionMarker?, hc] at bare
  | _ => simp [hd] at bare

theorem filter_isBareMarker_eq_nil {run : List NodeId}
    (plain : ∀ id ∈ run, (t.node id).isMarker = false) : run.filter t.isBareMarker = [] := by
  apply List.filter_eq_nil_iff.2
  intro id member bare
  have mark := isMarker_of_isBareMarker bare
  rw [plain id member] at mark
  cases mark

theorem takeWhile_ne_append_of_mem {id : NodeId} {run rest : List NodeId} (member : id ∈ run) :
    (run ++ rest).takeWhile (· ≠ id) = run.takeWhile (· ≠ id) := by
  induction run with
  | nil => cases member
  | cons first run ih =>
    by_cases same : first = id
    · simp [same]
    · have later : id ∈ run := (List.mem_cons.1 member).resolve_left fun eq => same eq.symm
      have rest := ih later
      simp [same] at rest ⊢
      exact rest

/-- In the first section of a body there is no marker before a statement. -/
theorem markers_in_run {id : NodeId} {run : List NodeId}
    (plain : ∀ id ∈ run, (t.node id).isMarker = false) :
    (run.takeWhile (· ≠ id)).filter t.isBareMarker = [] :=
  filter_isBareMarker_eq_nil fun i member => plain i (List.takeWhile_subset _ member)

/-- Sorting keeps the bare markers before a statement, in order. -/
theorem SortsSections.markers_eq {xs ys : List NodeId} (h : t.SortsSections xs ys) {id : NodeId}
    (member : id ∈ xs) :
    (ys.takeWhile (· ≠ id)).filter t.isBareMarker =
      (xs.takeWhile (· ≠ id)).filter t.isBareMarker := by
  induction h with
  | last plain sorts => rw [markers_in_run (sorts.plain plain), markers_in_run plain]
  | @marker run sorted rest rest' mark plain sorts _ later ih =>
    by_cases inRun : id ∈ run
    · rw [takeWhile_ne_append_of_mem inRun,
        takeWhile_ne_append_of_mem (sorts.perm.mem_iff.2 inRun),
        markers_in_run (sorts.plain plain), markers_in_run plain]
    · have beyond : ∀ i ∈ run, decide (i ≠ id) = true := by
        intro i inside
        simpa using fun same : i = id => inRun (same ▸ inside)
      have beyond' : ∀ i ∈ sorted, decide (i ≠ id) = true :=
        fun i inside => beyond i (sorts.perm.mem_iff.1 inside)
      rw [List.takeWhile_append_of_pos beyond, List.takeWhile_append_of_pos beyond',
        List.filter_append, List.filter_append, filter_isBareMarker_eq_nil plain,
        filter_isBareMarker_eq_nil (sorts.plain plain)]
      by_cases here : mark = id
      · simp [here]
      · have after : id ∈ rest := by
          rcases List.mem_append.1 member with left | right
          · exact absurd left inRun
          · exact (List.mem_cons.1 right).resolve_left fun eq => here eq.symm
        have rest := ih after
        simp only [ne_eq, decide_not] at rest
        simp [here, List.filter_cons, rest]

/-- Empty lines are no markers. -/
theorem markers_statements {id : NodeId} (proper : (t.node id).isBlank = false)
    (body : List NodeId) :
    ((t.statements body).takeWhile (· ≠ id)).filter t.isBareMarker =
      (body.takeWhile (· ≠ id)).filter t.isBareMarker := by
  induction body with
  | nil => rfl
  | cons first body ih =>
    cases blank : (t.node first).isBlank with
    | true =>
      have other : first ≠ id := by
        rintro rfl
        rw [proper] at blank
        cases blank
      have unmarked : t.isBareMarker first = false := by
        rw [isBareMarker, Node.sectionMarker?]
        rw [Node.isBlank] at blank
        cases hd : (t.node first).decl <;> simp [hd] at blank ⊢
      rw [statements, List.filter_cons_of_neg (by simp [blank])]
      rw [statements] at ih
      simp [other, unmarked] at ih ⊢
      exact ih
    | false =>
      rw [statements, List.filter_cons_of_pos (by simp [blank])]
      rw [statements] at ih
      by_cases here : first = id
      · simp [here]
      · simp [here, List.filter_cons] at ih ⊢
        rw [ih]

theorem markerBefore_sortedBody {scope id : NodeId} (member : id ∈ t.body scope)
    (proper : (t.node id).isBlank = false) :
    t.markerBefore (t.sortedBody scope) id = t.markerBefore (t.body scope) id := by
  have stated : id ∈ t.statements (t.body scope) :=
    List.mem_filter.2 ⟨member, by simp [proper]⟩
  rw [markerBefore, (sortsSections_sortedBody scope).markers_eq stated,
    markers_statements proper, markerBefore]

end Tree

end InterfaceFile
