import InterfaceFile.Proofs.Merge.LastWins
import InterfaceFile.Proofs.Merge.Origins

/-!
# The side that loses a conflict of kinds

If a class and a module have one name, then the policy decides which of them stays. Where the earlier
one stays, the body of the other is left out, and nothing of it is left. Where the later one wins, only
the header is replaced: the new body is merged on top of what the scope held before, so that the class
that stays holds the declarations of the module, too.
-/

namespace InterfaceFile

/-- All scopes at a path are of one kind. -/
def Standing.OneKind (ds : List Standing) (path : List String) : Prop :=
  ∀ a ∈ ds, ∀ b ∈ ds, ∀ s t, a.node.scope? = some s → b.node.scope? = some t →
    a.path ++ [s.name] = path → b.path ++ [t.name] = path → s.kind.sameFlavour t.kind = true

/-- Two scopes have the same name and are of the same kind, whatever their superclasses. -/
structure Scope.Alike (s t : Scope) : Prop where
  name : s.name = t.name
  kind : s.kind.sameFlavour t.kind = true

namespace Scope

variable {keep : Keep} {around given : List Scope}

theorem JoinAll.names_eq (h : JoinAll keep around given) :
    around.map Scope.name = given.map Scope.name := by
  induction h with
  | nil => rfl
  | cons joined _ ih => rw [List.map_cons, List.map_cons, name_eq_of_joins joined, ih]

theorem JoinAll.alike (decided : keep ≠ .right) (h : JoinAll keep around given) :
    List.Forall₂ Alike around given :=
  h.imp fun _ _ joined => ⟨name_eq_of_joins joined, sameFlavour_of_joins decided joined⟩

end Scope

namespace Standing

theorem path_take {d : Standing} {i : Nat} {s : Scope} (here : d.around[i]? = some s) :
    d.path.take (i + 1) = (d.around.take i).map Scope.name ++ [s.name] := by
  rw [path, ← List.map_take, List.take_add_one, here]
  simp

end Standing

namespace Tree

variable {trees : List Tree}

/-- The scopes around what a tree declares are declared in the tree. -/
theorem mem_standings_around {t : Tree} {d : Standing} (member : d ∈ t.standings) {i : Nat} {s : Scope}
    (here : d.around[i]? = some s) :
    ∃ node, { around := d.around.take i, node } ∈ t.standings ∧ node.scope? = some s := by
  obtain ⟨bound, rfl⟩ := List.getElem?_eq_some_iff.1 here
  apply Outline.mem_standingsAll_around _ _ d member _ _ (d.around.drop (i + 1))
  rw [← List.drop_eq_getElem_cons, List.take_append_drop]

/-- A scope of a merged tree is of the kind of one that was merged at its path. -/
theorem exists_scope_of_merge {keep : Keep} {d : Standing} (member : d ∈ (merge keep trees).1.standings)
    {i : Nat} {s : Scope} (here : d.around[i]? = some s) :
    ∃ g ∈ trees.flatMap standings, g.node.scope? = some s ∧
      g.path ++ [s.name] = d.path.take (i + 1) := by
  obtain ⟨node, stands, opens⟩ := mem_standings_around member here
  obtain ⟨g, given, stem, joined⟩ := origin_merge keep trees _ stands
  refine ⟨g, given, (Node.scope?_congr stem.decl).symm.trans opens, ?_⟩
  rw [Standing.path_take here, joined.names_eq]
  rfl

/-- Where the scopes at a path are of one kind, what stands there comes from a scope of that kind. -/
theorem sameFlavour_of_oneKind {keep : Keep} {d g : Standing}
    (member : d ∈ (merge keep trees).1.standings) (given : g ∈ trees.flatMap standings)
    (path : d.path = g.path) {i : Nat} {s t : Scope} (here : d.around[i]? = some s)
    (there : g.around[i]? = some t)
    (one : Standing.OneKind (trees.flatMap standings) (d.path.take (i + 1))) :
    s.kind.sameFlavour t.kind = true := by
  obtain ⟨a, ha, opens, pathA⟩ := exists_scope_of_merge member here
  obtain ⟨tree, known, inside⟩ := List.mem_flatMap.1 given
  obtain ⟨node, stands, opens'⟩ := mem_standings_around inside there
  refine one a ha _ (List.mem_flatMap.2 ⟨tree, known, stands⟩) s t opens opens' pathA ?_
  rw [path, Standing.path_take there]
  rfl

/-- If the later declaration wins, then nothing that is declared is lost. -/
theorem exists_standing_of_merge_right {g : Standing} (given : g ∈ trees.flatMap standings) :
    ∃ d ∈ (merge .right trees).1.standings, d.path = g.path ∧ d.node.key? = g.node.key? := by
  have located : g.located ∈ trees.flatMap declarations := by
    obtain ⟨t, known, inside⟩ := List.mem_flatMap.1 given
    refine List.mem_flatMap.2 ⟨t, known, ?_⟩
    rw [← map_located_standings]
    exact List.mem_map_of_mem inside
  obtain ⟨key, named⟩ : ∃ key, g.node.key? = some key :=
    Merging.exists_key (proper_declarations trees _ located).1
  have occurs : g.node ∈ Located.occurrences g.path key (trees.flatMap declarations) :=
    List.mem_filter.2 ⟨Located.mem_declaredAt.2 located, by simpa using named⟩
  have held := (merge_right trees).1 g.path key
  cases left : survivor (Located.occurrences g.path key (trees.flatMap declarations)) with
  | none =>
    rw [survivor_eq_none.1 left] at occurs
    cases occurs
  | some n =>
    have member : n ∈ Located.occurrences g.path key (merge .right trees).1.declarations := by
      rw [held, left]
      exact List.mem_singleton_self n
    obtain ⟨declared, own⟩ := List.mem_filter.1 member
    have stands := Located.mem_declaredAt.1 declared
    rw [← map_located_standings] at stands
    obtain ⟨d, inside, same⟩ := List.mem_map.1 stands
    refine ⟨d, inside, congrArg Located.path same, ?_⟩
    have node : d.node = n := congrArg Located.node same
    rw [node, named]
    simpa using own

end Tree

/-- If the earlier of two declarations stays, then all that a merged tree holds comes from scopes that
    are, one by one, of the kinds that the merged scopes have. If the later one wins, then it comes from
    scopes with the same names, and the kind of a scope is that of the merged one if all scopes at its
    path are of one kind. Otherwise the scope holds what was declared in scopes of the other kind as
    well, since nothing that is declared at any position is lost. -/
theorem merged_bodies_come_from_scopes_of_their_kind (trees : List Tree) :
    (∀ d ∈ (Tree.merge .left trees).1.standings, ∃ g ∈ trees.flatMap Tree.standings,
      d.node.StemsFrom g.node ∧ List.Forall₂ Scope.Alike d.around g.around) ∧
    (∀ d ∈ (Tree.merge .right trees).1.standings, ∃ g ∈ trees.flatMap Tree.standings,
      d.node.StemsFrom g.node ∧ d.path = g.path ∧
        ∀ i s t, d.around[i]? = some s → g.around[i]? = some t →
          Standing.OneKind (trees.flatMap Tree.standings) (d.path.take (i + 1)) →
            s.kind.sameFlavour t.kind = true) ∧
    ∀ g ∈ trees.flatMap Tree.standings, ∃ d ∈ (Tree.merge .right trees).1.standings,
      d.path = g.path ∧ d.node.key? = g.node.key? := by
  refine ⟨fun d member => ?_, fun d member => ?_, fun g given => ?_⟩
  · obtain ⟨g, given, stem, joined⟩ := Tree.origin_merge .left trees d member
    exact ⟨g, given, stem, joined.alike (by decide)⟩
  · obtain ⟨g, given, stem, joined⟩ := Tree.origin_merge .right trees d member
    have path : d.path = g.path := joined.names_eq
    exact ⟨g, given, stem, path, fun i s t here there one =>
      Tree.sameFlavour_of_oneKind member given path here there one⟩
  · exact Tree.exists_standing_of_merge_right given

/-- A module and a class with one name, each with a constant. -/
def moduleThenClass : List Tree :=
  let constant (name : String) : Outline := .mk { decl := .const { name } } []
  [.ofOutlines none [.mk (.moduleDef "A") [constant "X"]],
    .ofOutlines none [.mk (.classDef "A" none) [constant "Y"]]]

/-- The class that replaces the module holds the constant of the module. -/
theorem losing_side_stays_in_moduleThenClass :
    ¬ ∀ d ∈ (Tree.merge .right moduleThenClass).1.standings,
      ∃ g ∈ moduleThenClass.flatMap Tree.standings,
        d.node.key? = g.node.key? ∧ d.path = g.path ∧
          ∀ s ∈ d.around.getLast?, ∀ t ∈ g.around.getLast?, s.kind.sameFlavour t.kind = true := by
  decide +kernel

end InterfaceFile
