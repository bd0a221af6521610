import InterfaceFile.Printer.File
import InterfaceFile.Proofs.Rewriter.Sorted
import InterfaceFile.Proofs.Rewriter.Spaced

/-!
# Arranged trees

Sorting drops all empty lines, and spacing makes new ones. A tree that is sorted and spaced twice has
other empty lines in the end, but they stand where the first ones stood: without them both runs come
to the same sorted tree, and a gap depends on nothing else.
-/

namespace InterfaceFile

/-- Gaps are filled alike if the statements read alike and one line reads like the other. -/
theorem map_fillGaps_congr {α β : Type} {f f' : α → β} {line : β} (gap : α → α → Bool) :
    ∀ statements blanks blanks' : List α, (∀ a ∈ statements, f a = f' a) →
    (∀ a ∈ blanks, f a = line) → (∀ a ∈ blanks', f' a = line) →
    countGaps gap statements ≤ blanks.length → countGaps gap statements ≤ blanks'.length →
    (fillGaps gap statements blanks).map f = (fillGaps gap statements blanks').map f'
  | [], _, _, _, _, _, _, _ => rfl
  | [_], _, _, same, _, _, _, _ => List.map_congr_left same
  | a :: b :: rest, blanks, blanks', same, empty, empty', enough, enough' => by
    obtain ⟨here, after⟩ := List.forall_mem_cons.1 same
    rw [countGaps] at enough enough'
    have used : (blanks.take (if gap a b then 1 else 0)).map f =
        (blanks'.take (if gap a b then 1 else 0)).map f' := by
      cases wide : gap a b with
      | false => rfl
      | true =>
        rw [wide, if_pos rfl] at enough enough'
        obtain ⟨x, xs, rfl⟩ := List.exists_cons_of_length_pos (l := blanks) (by omega)
        obtain ⟨y, ys, rfl⟩ := List.exists_cons_of_length_pos (l := blanks') (by omega)
        simp [empty x, empty' y]
    have later := map_fillGaps_congr gap (b :: rest) (blanks.drop (if gap a b then 1 else 0))
      (blanks'.drop (if gap a b then 1 else 0)) after
      (fun c member => empty c (List.mem_of_mem_drop member))
      (fun c member => empty' c (List.mem_of_mem_drop member))
      (by rw [List.length_drop]; omega) (by rw [List.length_drop]; omega)
    rw [fillGaps_cons_cons, fillGaps_cons_cons, List.map_cons, List.map_cons, List.map_append,
      List.map_append, here, used, later]

namespace Tree

variable {t u t₁ t₂ : Tree} {scope : NodeId}

/-- Sorts the bodies of all scopes and gives them their spacing. -/
def arrange (t : Tree) : Except Fault Tree := do
  let t ← t.sort
  t.space

/-! ## The level of a tree -/

theorem strictness_spaceScope (run : t.spaceScope scope = .ok u) :
    u.strictness = t.strictness := by
  rw [spaceScope_eq] at run
  split at run
  · cases run
    rfl
  · have kept := strictness_replaceBody run
    exact kept

theorem strictness_space (run : t.space = .ok u) : u.strictness = t.strictness := by
  unfold space at run
  generalize t.scopes = scopes at run
  induction scopes generalizing t with
  | nil =>
    cases run
    rfl
  | cons scope scopes ih =>
    rw [List.foldlM_cons] at run
    cases first : t.spaceScope scope with
    | error fault =>
      rw [first] at run
      cases run
    | ok next =>
      rw [first] at run
      exact (ih run).trans (strictness_spaceScope first)

/-! ## Trees that read alike -/

theorem gapIn_congr (node : ∀ i, u.node i = t.node i) (body : ∀ i, u.body i = t.body i) :
    u.gapIn scope = t.gapIn scope := by
  funext a b
  simp only [gapIn, needsGap, isOneLiner, node, body]

/-- A tree lists the same scopes as another one that has its nodes and lists what it lists. -/
theorem Linked.mem_scopes_of_body (h : t.Linked) (h' : u.Linked) (node : ∀ i, u.node i = t.node i)
    (listed : ∀ s id, id ∈ t.body s → id ∈ u.body s) (member : scope ∈ t.scopes) :
    scope ∈ u.scopes := by
  obtain ⟨attached, opens⟩ := h.mem_scopes.1 member
  refine h'.mem_scopes.2 ⟨?_, (node scope).symm ▸ opens⟩
  refine h'.attached_of_links h (P := fun _ => True) ?_ trivial attached
  intro id around _ link
  exact ⟨(h'.parent_iff id around).2 (listed around id ((h.parent_iff id around).1 link)), trivial⟩

/-- No scope of the tree has an empty line in its body. -/
def Tight (t : Tree) : Prop :=
  ∀ scope ∈ t.scopes, ∀ id ∈ t.body scope, (t.node id).isBlank = false

namespace Tight

theorem statements_eq (tight : t.Tight) (member : scope ∈ t.scopes) :
    t.statements (t.body scope) = t.body scope := by
  apply List.filter_eq_self.2
  intro id listed
  simp [tight scope member id listed]

theorem blanks_eq (tight : t.Tight) (member : scope ∈ t.scopes) :
    t.blanks (t.body scope) = [] := by
  apply List.filter_eq_nil_iff.2
  intro id listed
  simp [tight scope member id listed]

/-- What is spaced is filled up with new lines. -/
theorem spaces (tight : t.Tight) (member : scope ∈ t.scopes) {body : List NodeId}
    (spaced : t.Spaces scope body) : ∃ new, (∀ i ∈ new, t.size ≤ i) ∧
      countGaps (t.gapIn scope) (t.body scope) ≤ new.length ∧
      body = fillGaps (t.gapIn scope) (t.body scope) new := by
  obtain ⟨new, fresh, enough, eq⟩ := spaced
  rw [gaps] at enough
  rw [tight.blanks_eq member, List.nil_append, tight.statements_eq member] at enough eq
  exact ⟨new, fresh, enough, eq⟩

end Tight

/-- A line with a new number is an empty line with nothing inside. -/
theorem SpacedAt.outline_new (spaced : SpacedAt t u t.scopes) {id : NodeId} (h : t.Linked)
    (fresh : t.size ≤ id) : u.outline id = .mk .blank [] := by
  have blank : t.node id = .blank := by
    rw [Tree.node, slot_of_size_le fresh]
    rfl
  have other : id ∉ t.scopes := by
    intro member
    have opens := (h.mem_scopes.1 member).2
    rw [blank] at opens
    cases opens
  rw [spaced.linked.outline_eq, spaced.node, spaced.kept id other, body_of_size_le fresh, blank]
  rfl

/-- Trees without empty lines that read alike read alike when they are spaced. -/
theorem SpacedAt.outline_congr (h : t.Linked) (h' : u.Linked) (node : ∀ i, u.node i = t.node i)
    (body : ∀ i, u.body i = t.body i) (tight : t.Tight) (one : SpacedAt t t₁ t.scopes)
    (two : SpacedAt u t₂ u.scopes) (id : NodeId) : t₂.outline id = t₁.outline id := by
  have scopes : ∀ s, s ∈ u.scopes ↔ s ∈ t.scopes := fun s =>
    ⟨h'.mem_scopes_of_body h (fun i => (node i).symm) fun s id listed => body s ▸ listed,
      h.mem_scopes_of_body h' node fun s id listed => (body s).symm ▸ listed⟩
  have tight' : u.Tight := by
    intro s member id listed
    rw [node]
    exact tight s ((scopes s).1 member) id (body s ▸ listed)
  induction id using h.descent.induction with
  | _ id ih =>
    rw [one.linked.outline_eq, two.linked.outline_eq, one.node, two.node, node]
    congr 1
    by_cases member : id ∈ t.scopes
    · obtain ⟨new, fresh, enough, eq⟩ := tight.spaces member (one.spaced id member)
      obtain ⟨new', fresh', enough', eq'⟩ :=
        tight'.spaces ((scopes id).2 member) (two.spaced id ((scopes id).2 member))
      rw [gapIn_congr node body, body] at enough' eq'
      rw [eq, eq']
      exact map_fillGaps_congr _ _ _ _ ih (fun i new => two.outline_new h' (fresh' i new))
        (fun i new => one.outline_new h (fresh i new)) enough' enough
    · rw [one.kept id member, two.kept id fun again => member ((scopes id).1 again), body]
      exact List.map_congr_left ih

/-! ## Two runs -/

theorem SortedAt.tight (h : t.Linked) (sorted : SortedAt t u t.scopes) : u.Tight := by
  intro scope member id listed
  rw [sorted.body, if_pos (sorted.mem_scopes h member)] at listed
  rw [sorted.node]
  exact (mem_sortedBody.1 listed).2

theorem sortFrom_statements (gathered body : List NodeId) :
    t.sortFrom gathered (t.statements body) = t.sortFrom gathered body := by
  induction body generalizing gathered with
  | nil => rfl
  | cons id body ih =>
    cases blank : (t.node id).isBlank with
    | true =>
      rw [sortFrom, if_pos blank, ← ih]
      simp [statements, blank]
    | false =>
      have first : t.statements (id :: body) = id :: t.statements body := by
        simp [statements, blank]
      simp only [first, sortFrom, ih]

/-- A sorted tree that is spaced and sorted again has its old bodies. -/
theorem SortedAt.body_after {s s' : Tree} (h : t.Linked) (sorted : SortedAt t s t.scopes)
    (spaced : SpacedAt s t₁ s.scopes) (again : SortedAt t₁ s' t₁.scopes) (scope : NodeId) :
    s'.body scope = s.body scope := by
  have tight := sorted.tight h
  have kept : ∀ x id, id ∈ s.body x → id ∈ t₁.body x := by
    intro x id listed
    by_cases member : x ∈ s.scopes
    · have same := (spaced.spaced x member).statements_eq
      rw [tight.statements_eq member] at same
      exact mem_of_mem_statements (same.symm ▸ listed)
    · rwa [spaced.kept x member]
  rw [again.body]
  by_cases member : scope ∈ s.scopes
  · have settled : s.sortFrom [] (s.body scope) = s.body scope := by
      rw [sortFrom_congr sorted.node, sorted.body, if_pos (sorted.mem_scopes h member)]
      exact sortFrom_sortedBody scope
    rw [if_pos (sorted.linked.mem_scopes_of_body spaced.linked spaced.node kept member), sortedBody,
      sortFrom_congr spaced.node, ← sortFrom_statements, (spaced.spaced scope member).statements_eq,
      tight.statements_eq member, settled]
  · rw [if_neg fun turned => member (spaced.mem_scopes sorted.linked turned),
      spaced.kept scope member]

end Tree

/-- Where the links agree a tree can be sorted and spaced, and once more after that. The second time
    the statements under the root stay as they are, with the empty lines between them, and so does
    the text. -/
theorem arranging_is_idempotent {t : Tree} (h : t.Linked) :
    ∃ t₁ t₂, t.arrange = .ok t₁ ∧ t₁.arrange = .ok t₂ ∧
      t₂.outline Tree.root = t₁.outline Tree.root ∧ t₂.strictness = t₁.strictness ∧
      ∀ o, t₂.render o = t₁.render o := by
  obtain ⟨s, sort, sorted⟩ := h.sort_ok
  obtain ⟨t₁, space, spaced⟩ := sorted.linked.space_ok
  obtain ⟨s', sort', sorted'⟩ := spaced.linked.sort_ok
  obtain ⟨t₂, space', spaced'⟩ := sorted'.linked.space_ok
  have same : t₂.outline Tree.root = t₁.outline Tree.root :=
    Tree.SpacedAt.outline_congr sorted.linked sorted'.linked
      (fun i => (sorted'.node i).trans (spaced.node i)) (sorted.body_after h spaced sorted')
      (sorted.tight h) spaced spaced' Tree.root
  have level : t₂.strictness = t₁.strictness :=
    (Tree.strictness_space space').trans sorted'.strictness
  refine ⟨t₁, t₂, ?_, ?_, same, level, fun o => ?_⟩
  · rw [Tree.arrange, sort]
    exact space
  · rw [Tree.arrange, sort']
    exact space'
  · rw [Tree.render, Tree.render, same, level]

/-- A class before a constant whose name comes first. -/
def crowdedFile : Tree :=
  let t := (Edit.push 0 (.classDef "B" none)).apply .empty
  (Edit.push 0 { decl := .const { name := "A" } }).apply t

theorem linked_crowdedFile : crowdedFile.Linked := by
  have one := Built.empty.edit (.push 0 (.classDef "B" none)) (by decide)
  exact (one.edit (.push 0 { decl := .const { name := "A" } }) (by decide)).linked

/-- The two statements change places, and an empty line comes between them. -/
theorem arrange_crowdedFile :
    crowdedFile.arrange.map (fun t => t.body Tree.root) = .ok [2, 3, 1] := by
  have top : crowdedFile.sortedBody 0 = [2, 1] := by
    show crowdedFile.sortSection [1, 2] = _
    rw [Tree.sortSection_pair]
    decide
  have inner : ∀ t : Tree, t.body 1 = [] → t.sortScope 1 = .ok t := by
    intro t none
    have sorted : t.sortedBody 1 = [] := by
      rw [Tree.sortedBody, none]
      exact List.mergeSort_nil
    rw [Tree.sortScope, sorted, none]
    rfl
  have scopes : crowdedFile.scopes = [0, 1] := by decide
  obtain ⟨s, run, body⟩ : ∃ s, crowdedFile.replaceBody 0 [2, 1] = .ok s ∧ s.body 1 = [] ∧
      s.space.map (fun t => t.body Tree.root) = .ok [2, 3, 1] := ⟨_, rfl, by decide⟩
  have sort : crowdedFile.sort = .ok s := by
    rw [Tree.sort, scopes, List.foldlM_cons, Tree.sortScope, top, if_neg (by decide), run]
    show s.sortScope 1 >>= pure = _
    rw [inner s body.1]
    rfl
  rw [Tree.arrange, sort]
  exact body.2

theorem arranging_is_idempotent_crowdedFile :
    crowdedFile.Linked ∧ ∃ t₁ t₂, crowdedFile.arrange = .ok t₁ ∧ t₁.arrange = .ok t₂ ∧
      t₁.body Tree.root = [2, 3, 1] ∧ t₂.outline Tree.root = t₁.outline Tree.root ∧
      t₂.render {} = t₁.render {} := by
  have linked := linked_crowdedFile
  obtain ⟨t₁, t₂, run, again, same, -, text⟩ := arranging_is_idempotent linked
  have body := arrange_crowdedFile
  rw [run] at body
  exact ⟨linked, t₁, t₂, run, again, Except.ok.inj body, same, text {}⟩

end InterfaceFile
