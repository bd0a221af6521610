import InterfaceFile.Proofs.Merge.Sides
import InterfaceFile.Proofs.RoundTrip.ReadCall

/-!
# Calls that declare nothing

A call that declares no name is known by its text, but two calls are the same only if their arguments
and blocks are. Where the two notions differ, a merge finds a conflict between calls that look alike.
They do not differ for calls that are read back from their text, since a text is read in one way.
-/

namespace InterfaceFile

open Located (occurrences)
open Standing (Disputed)

/-! ## Calls with one text -/

/-- A text is read as one declaration. -/
theorem Reader.ReadsLeaf.unique {text : List Char} {decl decl' : Declaration}
    (h : ReadsLeaf text decl) (h' : ReadsLeaf text decl') : decl = decl' := by
  let c : Cursor := Cursor.ofText none (text ++ ['\n'])
  obtain ⟨_, _, run, -, d, rfl, same⟩ := h.2 [] c rfl
  obtain ⟨_, _, run', -, d', rfl, same'⟩ := h'.2 [] c rfl
  rw [run] at run'
  cases run'
  exact same.symm.trans same'

/-- Calls that are read back from their text are told apart by it. -/
theorem Call.eq_of_render_eq {o : PrintOptions} {c c' : Call} (h : c.Printable o)
    (h' : c'.Printable o) (same : c.render o = c'.render o) : c = c' := by
  have read := Reader.readsLeaf_call h
  rw [same] at read
  exact Declaration.call.inj (read.unique (Reader.readsLeaf_call h'))

/-- What is known by its text is a call. -/
theorem Node.key?_eq_call {n : Node} {text : String} : n.key? = some (.call text) ↔
    ∃ c, n.decl = .call c ∧ c.declaredName? = none ∧ c.render {} = text := by
  rw [key?]
  cases n.decl with
  | call c => cases named : c.declaredName? <;> simp [named]
  | _ => simp

theorem Node.scope?_eq_none_of_call {n : Node} {text : String} (named : n.key? = some (.call text)) :
    n.scope? = none := by
  obtain ⟨c, decl, -⟩ := key?_eq_call.1 named
  rw [scope?, decl]

/-- If two calls with one text are not the same, then one of them is not read back from it. -/
theorem Standing.Disputed.not_printable {ds : List Standing} {path : List String} {text : String}
    (h : Disputed ds path (some (.call text))) :
    ∃ g ∈ ds, g.path = path ∧ ∃ c, g.node.decl = .call c ∧ c.render {} = text ∧ ¬ c.Printable {} := by
  obtain ⟨a, ha, b, hb, ⟨pathA, keyA⟩, ⟨pathB, keyB⟩, other⟩ := h
  obtain ⟨c, declA, -, textA⟩ := Node.key?_eq_call.1 keyA
  obtain ⟨c', declB, -, textB⟩ := Node.key?_eq_call.1 keyB
  by_contra none
  have readable : ∀ g ∈ ds, g.path = path → ∀ c, g.node.decl = .call c → c.render {} = text →
      c.Printable {} := by
    intro g given here c decl same
    by_contra unread
    exact none ⟨g, given, here, c, decl, same, unread⟩
  have same : c = c' := Call.eq_of_render_eq (readable a ha pathA c declA textA)
    (readable b hb pathB c' declB textB) (textA.trans textB.symm)
  exact other (Node.stripped_congr (by rw [declA, declB, same]))

/-! ## Scopes that are merged -/

/-- A merged tree has a scope for every scope around a declaration, and their bodies were merged into
    it. -/
def Tree.Takes (keep : Keep) (merged : Tree) (g : Standing) : Prop :=
  ∃ around, merged.Opens around ∧ Scope.JoinAll keep around g.around

namespace Tree

variable {keep : Keep} {trees : List Tree} {g : Standing}

/-- If the later declaration wins, then the bodies of all scopes are merged. -/
theorem takes_of_merge_right (given : g ∈ trees.flatMap standings) :
    (merge .right trees).1.Takes .right g := by
  obtain ⟨d, member, path, -⟩ := exists_standing_of_merge_right given
  refine ⟨d.around, (normal_merge .right trees).opens member, ?_⟩
  have names : d.around.map Scope.name = g.around.map Scope.name := path
  rw [← List.forall₂_eq_eq_eq, List.forall₂_map_left_iff, List.forall₂_map_right_iff] at names
  exact names.imp fun s t same => by simp [Scope.joins, same]

/-- A declaration without a body that stands in merged scopes is there once, unless it was dropped
    for one with its key that does not say the same. -/
theorem occurrences_of_takes {key : Key} (given : g ∈ trees.flatMap standings)
    (leaf : g.node.scope? = none) (named : g.node.key? = some key)
    (takes : (merge keep trees).1.Takes keep g) :
    (∃ d ∈ trees.flatMap standings, ∃ n, (d.path = g.path ∧ d.node.key? = some key) ∧
      occurrences g.path key (merge keep trees).1.declarations = [n] ∧
        n.stripped = d.node.stripped) ∨
      keep = .neither ∧ Disputed (trees.flatMap standings) g.path (some key) := by
  obtain ⟨around, opens, joined⟩ := takes
  have normal := normal_merge keep trees
  have stated := normal
  rw [Opens, outline_merge] at opens
  rw [outline_merge] at stated
  rcases (holds_merge keep trees).present stated g given leaf around opens joined with
    ⟨d, member, rfl, key'⟩ | ⟨neither, disputed⟩
  · rw [← standings_merge] at member
    obtain ⟨a, ha, stem, origin⟩ := origin_merge keep trees d member
    have path : d.path = g.path := joined.names_eq
    refine .inl ⟨a, ha, d.node, ⟨origin.names_eq.symm.trans path, ?_⟩, ?_, stem.stripped⟩
    · rw [← stem.key, key', named]
    · apply Located.occurrences_eq_singleton normal
      refine List.mem_filter.2 ⟨Located.mem_declaredAt.2 ?_, by simp [key', named]⟩
      show _ ∈ (merge keep trees).1.declarations
      rw [← map_located_standings, ← path]
      exact List.mem_map_of_mem member
  · rw [named] at disputed
    exact .inr ⟨neither, disputed⟩

end Tree

/-- The conflicts of a merge are those that are reported, in the order of the declarations that they are
    reported for. One is reported for a call that declares no name only if two calls with its text, in
    scopes with the same names, are not the same. If the scopes around such a call are merged, then its
    text is there exactly once, and says what the call says unless there is such a conflict; it is gone
    only if neither of two calls stays. If the later declaration wins, then all scopes are merged. Two
    calls with one text are the same if both are read back from it. -/
theorem plain_calls_conflict_only_if_their_text_misleads (keep : Keep) (trees : List Tree) :
    let given := trees.flatMap Tree.standings
    let merged := Tree.merge keep trees
    (merged.2 = (Tree.reports keep trees).map Report.conflict ∧
      ((Tree.reports keep trees).map Report.standing).Sublist given ∧
      ∀ r ∈ Tree.reports keep trees, r.conflict.right = r.standing.node.loc ∧
        ∀ text, r.standing.node.key? = some (.call text) →
          Disputed given r.standing.path (some (.call text))) ∧
    (∀ g ∈ given, ∀ text, g.node.key? = some (.call text) → merged.1.Takes keep g →
      (keep = .neither → ¬ Disputed given g.path (some (.call text))) →
        ∃ n, occurrences g.path (.call text) merged.1.declarations = [n] ∧
          (¬ Disputed given g.path (some (.call text)) → n.stripped = g.node.stripped)) ∧
    (keep = .right → ∀ g ∈ given, merged.1.Takes keep g) ∧
    ∀ path text, Disputed given path (some (.call text)) → ∃ g ∈ given, g.path = path ∧
      ∃ c, g.node.decl = .call c ∧ c.render {} = text ∧ ¬ c.Printable {} := by
  intro given merged
  refine ⟨⟨Tree.conflicts_merge_eq_reports keep trees, Tree.sublist_standings_reports keep trees,
      fun r member => ⟨Tree.right_of_mem_reports member, fun text named => ?_⟩⟩,
    fun g member text named takes decided => ?_, ?_, fun path text disputed => disputed.not_printable⟩
  · have disputed := (Merging.originates_mergeInto keep trees).disputed "" {} []
      Merging.numbered_empty .nil r member (Node.scope?_eq_none_of_call named)
    rwa [List.nil_append, named] at disputed
  · rcases Tree.occurrences_of_takes member (Node.scope?_eq_none_of_call named) named takes with
      ⟨d, known, n, ⟨path, key⟩, one, same⟩ | ⟨neither, disputed⟩
    · refine ⟨n, one, fun alike => same.trans ?_⟩
      by_contra other
      exact alike ⟨d, known, g, member, ⟨path, key⟩, ⟨rfl, named⟩, other⟩
    · exact absurd disputed (decided neither)
  · rintro rfl g member
    exact Tree.takes_of_merge_right member

/-- Two calls with one text. The block of the second is written into the argument of the first. -/
def callsWithOneText : Tree :=
  .ofOutlines none
    [.mk { decl := .call { callee := .other "foo", args := ["a \x7b b \x7d"] } } [],
      .mk { decl := .call { callee := .other "foo", args := ["a"], block := some "b" } } []]

/-- Whatever stays, the merge of the two records a conflict; and if neither stays, both are gone. -/
theorem calls_with_one_text_conflict :
    (∀ d ∈ callsWithOneText.standings, d.node.key? = some (.call "foo a \x7b b \x7d")) ∧
      (∀ keep, ∃ r ∈ Tree.reports keep [callsWithOneText],
        r.standing.node.key? = some (.call "foo a \x7b b \x7d")) ∧
      (Tree.merge .neither [callsWithOneText]).1.declarations = [] := by
  refine ⟨by decide +kernel, fun keep => ?_, ?_⟩
  · cases keep <;> decide +kernel
  · decide +kernel

end InterfaceFile
