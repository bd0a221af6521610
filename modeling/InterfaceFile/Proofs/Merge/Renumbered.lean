import InterfaceFile.Proofs.Merge.Merged
import InterfaceFile.Proofs.Merge.NormalForm

/-!
# Merging at once and in two steps

The numbers of entries do not matter to a merge: from entries that differ in nothing else it finds
the same conflicts and leaves entries that differ in nothing else. The tree of a merge that dropped
nothing gives back its entries under other numbers. So it is the same to merge all trees at once and
to merge some of them first and the others into the result.
-/

namespace InterfaceFile

/-! ## Entries without their numbers -/

namespace Entry

mutual

/-- The entry with the number 0, and so all entries inside it. -/
def unnumbered : Entry → Entry
  | mk _ node dropped body => mk 0 node dropped (unnumberedAll body)

/-- The entries with the number 0, and so all entries inside them. -/
def unnumberedAll : List Entry → List Entry
  | [] => []
  | e :: rest => e.unnumbered :: unnumberedAll rest

end

theorem unnumberedAll_eq_map (es : List Entry) : unnumberedAll es = es.map unnumbered := by
  induction es with
  | nil => rfl
  | cons e rest ih => rw [unnumberedAll, ih, List.map_cons]

theorem unnumberedAll_append (es fs : List Entry) :
    unnumberedAll (es ++ fs) = unnumberedAll es ++ unnumberedAll fs := by
  simp only [unnumberedAll_eq_map, List.map_append]

/-- What differs in numbers only is the same in all else. -/
theorem unnumbered_inj {id id' : NodeId} {node node' : Node} {dropped dropped' : Bool}
    {body body' : List Entry}
    (same : (mk id node dropped body).unnumbered = (mk id' node' dropped' body').unnumbered) :
    node = node' ∧ dropped = dropped' ∧ unnumberedAll body = unnumberedAll body' := by
  rw [unnumbered, unnumbered] at same
  injection same with _ node dropped body
  exact ⟨node, dropped, body⟩

theorem node_unnumbered (e : Entry) : e.unnumbered.node = e.node := by
  obtain ⟨id, node, dropped, body⟩ := e
  rfl

mutual

theorem outline_unnumbered : ∀ e : Entry, e.unnumbered.outline = e.outline
  | mk _ _ _ body => by rw [unnumbered, outline, outline, outlines_unnumberedAll body]

/-- Numbers do not show in what entries say. -/
theorem outlines_unnumberedAll : ∀ es : List Entry, outlines (unnumberedAll es) = outlines es
  | [] => rfl
  | .mk id node dropped body :: rest => by
    rw [unnumberedAll, outlines, outlines, outlines_unnumberedAll rest, outline_unnumbered]
    rfl

end

/-- Where nothing is dropped, entries that say the same differ in numbers only. -/
theorem Whole.unnumberedAll_eq {es fs : List Entry} (h : Whole es) (k : Whole fs)
    (same : outlines es = outlines fs) : unnumberedAll es = unnumberedAll fs := by
  induction h generalizing fs with
  | nil =>
    cases k with
    | nil => rfl
    | cons => simp [outlines, Entry.dropped] at same
  | cons inside later ihInside ihLater =>
    cases k with
    | nil => simp [outlines, Entry.dropped] at same
    | cons inside' later' =>
      simp only [outlines, outline, Entry.dropped, Bool.false_eq_true, if_false, List.cons.injEq,
        Outline.mk.injEq] at same
      obtain ⟨⟨rfl, bodies⟩, rests⟩ := same
      rw [unnumberedAll, unnumberedAll, unnumbered, unnumbered, ihInside inside' bodies,
        ihLater later' rests]

end Entry

namespace Merging

open Entry (unnumberedAll)

/-- Entries under other numbers have the same keys. -/
theorem fresh_of_alike {es es' : List Entry} {key : Option Key}
    (alike : unnumberedAll es = unnumberedAll es') (fresh : ∀ e ∈ es, e.node.key? ≠ key) :
    ∀ e ∈ es', e.node.key? ≠ key := by
  rw [Entry.unnumberedAll_eq_map, Entry.unnumberedAll_eq_map] at alike
  intro e' member
  have image : e'.unnumbered ∈ es.map Entry.unnumbered := by
    rw [alike]
    exact List.mem_map_of_mem member
  obtain ⟨e, inside, same⟩ := List.mem_map.1 image
  have nodes : e.node = e'.node := by
    rw [← e.node_unnumbered, same, e'.node_unnumbered]
  rw [← nodes]
  exact fresh e inside

/-- The first entry with a key stands in the same place under another number. -/
theorem Finds.renumbered {es es' before after : List Entry} {e : Entry} {key : Option Key}
    (found : Finds es key before e after) (alike : unnumberedAll es = unnumberedAll es') :
    ∃ before' e' after', Finds es' key before' e' after' ∧
      unnumberedAll before = unnumberedAll before' ∧ e.unnumbered = e'.unnumbered ∧
      unnumberedAll after = unnumberedAll after' := by
  have images := alike.symm
  rw [found.split, Entry.unnumberedAll_eq_map, Entry.unnumberedAll_eq_map, List.map_append,
    List.map_cons] at images
  obtain ⟨before', rest, split, firsts, others⟩ := List.map_eq_append_iff.1 images
  obtain ⟨e', after', rfl, here, lasts⟩ := List.map_eq_cons_iff.1 others
  have earlier : unnumberedAll before = unnumberedAll before' := by
    rw [Entry.unnumberedAll_eq_map, Entry.unnumberedAll_eq_map, firsts]
  refine ⟨before', e', after', ⟨split, fresh_of_alike earlier found.first, ?_⟩, earlier, here.symm,
    ?_⟩
  · rw [← found.key, ← e.node_unnumbered, ← here, e'.node_unnumbered]
  · rw [Entry.unnumberedAll_eq_map, Entry.unnumberedAll_eq_map, lasts]

/-! ## Two runs side by side -/

/-- From `m` to `r` and from `m'` to `r'` the same conflicts were found, and `r` and `r'` differ in
    numbers only. -/
structure Parallel (m m' r r' : Merging) : Prop where
  alike : unnumberedAll r.entries = unnumberedAll r'.entries
  conflicts : ∃ more, r.conflicts = m.conflicts ++ more ∧ r'.conflicts = m'.conflicts ++ more

/-- A run does not look at numbers. -/
def Blind (run : String → Merging → Merging) : Prop :=
  ∀ name (m m' : Merging), m.Numbered → m'.Numbered →
    unnumberedAll m.entries = unnumberedAll m'.entries → Parallel m m' (run name m) (run name m')

variable {m m' r : Merging}

theorem Parallel.refl (alike : unnumberedAll m.entries = unnumberedAll m'.entries) :
    Parallel m m' m m' :=
  ⟨alike, [], by simp⟩

theorem Parallel.trans {r' s s' : Merging} (h : Parallel m m' r r') (k : Parallel r r' s s') :
    Parallel m m' s s' := by
  obtain ⟨more, first, first'⟩ := h.conflicts
  obtain ⟨more', second, second'⟩ := k.conflicts
  refine ⟨k.alike, more ++ more', ?_, ?_⟩
  · rw [second, first, List.append_assoc]
  · rw [second', first', List.append_assoc]

theorem Blind.enter {inside : String → Merging → Merging} (blind : Blind inside) (descend : Bool)
    (name : String) (numbered : m.Numbered) (numbered' : m'.Numbered)
    (alike : unnumberedAll m.entries = unnumberedAll m'.entries) :
    Parallel m m' (enter descend inside name m) (enter descend inside name m') := by
  cases descend with
  | true => exact blind name m m' numbered numbered' alike
  | false => exact .refl alike

/-- A step from entries under other numbers is the same step. -/
theorem parallel_step {keep : Keep} {name : String} {node : Node}
    {inside : String → Merging → Merging} (blind : Blind inside) (numbered : m.Numbered)
    (numbered' : m'.Numbered) (alike : unnumberedAll m.entries = unnumberedAll m'.entries)
    (step : Step keep name node inside m r) :
    ∃ r', Step keep name node inside m' r' ∧ Parallel m m' r r' := by
  cases step with
  | @add inner fresh run =>
    let start : Merging := { next := m.next + 1, conflicts := m.conflicts }
    let start' : Merging := { next := m'.next + 1, conflicts := m'.conflicts }
    have both : Parallel start start' inner
        (enter node.isScope inside (node.qualifiedIn name) start') := by
      rw [run]
      exact blind.enter _ _ (numbered_start _ _) (numbered_start _ _) rfl
    refine ⟨_, .add (fresh_of_alike alike fresh) rfl, ?_, both.conflicts⟩
    simp only [Entry.unnumberedAll_append, Entry.unnumberedAll, Entry.unnumbered, alike]
    rw [both.alike]
  | @skip before after e found dropped =>
    obtain ⟨before', e', after', found', -, here, -⟩ := found.renumbered alike
    obtain ⟨id, old, gone, body⟩ := e
    obtain ⟨id', old', gone', body'⟩ := e'
    obtain ⟨-, rfl, -⟩ := Entry.unnumbered_inj here
    exact ⟨m', .skip found' dropped, .refl alike⟩
  | @drop before after e found stays none =>
    obtain ⟨before', e', after', found', firsts, here, lasts⟩ := found.renumbered alike
    obtain ⟨id, old, gone, body⟩ := e
    obtain ⟨id', old', gone', body'⟩ := e'
    obtain ⟨rfl, rfl, bodies⟩ := Entry.unnumbered_inj here
    refine ⟨_, .drop found' stays none, ?_, _, rfl, rfl⟩
    simp only [Entry.unnumberedAll_append, Entry.unnumberedAll, Entry.unnumbered, Entry.body,
      Entry.node, firsts, bodies, lasts]
  | @update before after e merged inner found stays some run =>
    obtain ⟨before', e', after', found', firsts, here, lasts⟩ := found.renumbered alike
    obtain ⟨id, old, gone, body⟩ := e
    obtain ⟨id', old', gone', body'⟩ := e'
    obtain ⟨rfl, rfl, bodies⟩ := Entry.unnumbered_inj here
    let union := old.unify keep node
    let start : Merging :=
      { entries := body, next := m.next, conflicts := (m.report name old node union).conflicts }
    let start' : Merging :=
      { entries := body', next := m'.next, conflicts := (m'.report name old node union).conflicts }
    have reported : Parallel m m' start start' := ⟨bodies, _, rfl, rfl⟩
    have both : Parallel start start' inner
        (enter union.descend inside (merged.qualifiedIn name) start') := by
      rw [run]
      exact blind.enter _ _ (numbered.inside _ found.mem) (numbered'.inside _ found'.mem) bodies
    refine ⟨_, .update found' stays some rfl, ?_, (reported.trans both).conflicts⟩
    simp only [Entry.unnumberedAll_append, Entry.unnumberedAll, Entry.unnumbered, firsts, lasts]
    rw [both.alike]
    rfl

theorem blind_mergeInto (keep : Keep) (trees : List Tree) : Blind (Tree.mergeInto keep trees) := by
  apply Tree.mergeInto_induction (Q := fun run _ => Blind run)
  · exact fun name m m' _ _ alike => .refl alike
  · intro f g _ _ grows first second name m m' numbered numbered' alike
    have one := first name m m' numbered numbered' alike
    exact one.trans (second name _ _ ((grows name m numbered).numbered numbered)
      ((grows name m' numbered').numbered numbered') one.alike)
  · intro node inside _ keyed _ _ blind name m m' numbered numbered' alike
    obtain ⟨r', step', both⟩ := parallel_step blind numbered numbered' alike
      (step_meet keep name inside numbered keyed)
    have same : m'.meet keep name node inside = r' := meet_eq_of_step numbered' keyed step'
    rw [← same] at both
    exact both

end Merging

/-! ## The tree of a merge as the first tree of another -/

namespace Tree

/-- The tree of a merge gives back its entries under other numbers, unless something was dropped. -/
theorem mergeOnto_merge {keep : Keep} (decided : keep ≠ .neither) (trees : List Tree) :
    (mergeOnto keep {} [(merge keep trees).1]).conflicts = [] ∧
      Entry.unnumberedAll (mergeOnto keep {} [(merge keep trees).1]).entries =
        Entry.unnumberedAll (mergeOnto keep {} trees).entries := by
  have normal := normal_merge keep trees
  have whole := Merging.keeping_mergeInto decided trees "" {} Merging.numbered_empty .nil
  have outline := outline_merge keep trees
  obtain ⟨es, entries, conflicts, stated, kept⟩ := mergeBody_of_normal normal keep "" {} (by simp)
  have once : mergeOnto keep {} [(merge keep trees).1] =
      mergeBody keep "" .pub ((merge keep trees).1.outline root).body {} := rfl
  rw [once, entries, conflicts]
  refine ⟨rfl, kept.unnumberedAll_eq whole ?_⟩
  rw [stated, outline]
  rfl

/-- The level of the merged tree is that of the trees. -/
theorem firstStrictness_merge (keep : Keep) (xs ys : List Tree) :
    firstStrictness ((merge keep xs).1 :: ys) = firstStrictness (xs ++ ys) := by
  have alone : firstStrictness [(merge keep xs).1] = firstStrictness xs := by
    rw [firstStrictness, List.filterMap_cons, strictness_merge]
    cases first : firstStrictness xs with
    | none => rfl
    | some level =>
      have nonempty : level ≠ "" := by simpa using List.find?_some first
      simp [nonempty]
  rw [firstStrictness_append, ← alone, ← firstStrictness_append]
  rfl

end Tree

/-- Unless the policy keeps neither of two declarations that disagree, it is the same to merge all
    trees at once and to merge some first and then the others into the result. The statements are
    the same, with their comments and locations and in the same order, and so is the level; the
    conflicts of the two steps are those of the one, in order. -/
theorem merge_in_two_steps (keep : Keep) (decided : keep ≠ .neither) (xs ys : List Tree) :
    let first := Tree.merge keep xs
    let second := Tree.merge keep (first.1 :: ys)
    let atOnce := Tree.merge keep (xs ++ ys)
    atOnce.1.outline Tree.root = second.1.outline Tree.root ∧
      atOnce.1.strictness = second.1.strictness ∧ atOnce.2 = first.2 ++ second.2 := by
  intro first second atOnce
  obtain ⟨quiet, alike⟩ := Tree.mergeOnto_merge decided xs
  have runs := Merging.blind_mergeInto keep ys "" _ _ (Tree.numbered_mergeOnto keep xs)
    (Tree.numbered_mergeOnto keep [first.1]) alike.symm
  obtain ⟨more, here, there⟩ := runs.conflicts
  refine ⟨?_, ?_, ?_⟩
  · rw [Tree.outline_merge, Tree.outline_merge, Tree.mergeOnto_append, ← Entry.outlines_unnumberedAll]
    exact congrArg _ ((congrArg Entry.outlines runs.alike).trans (Entry.outlines_unnumberedAll _))
  · rw [Tree.strictness_merge, Tree.strictness_merge, Tree.firstStrictness_merge]
  · rw [Tree.conflicts_merge, Tree.conflicts_merge, Tree.conflicts_merge, Tree.mergeOnto_append]
    show (Tree.mergeInto keep ys "" (Tree.mergeOnto keep {} xs)).conflicts = _
    rw [here]
    rw [quiet, List.nil_append] at there
    exact congrArg _ there.symm

theorem merge_in_two_steps_disputedClass :
    let first := Tree.merge .right (reopenedClass ++ [disputedClass])
    let second := Tree.merge .right (first.1 :: reopenedClass)
    let atOnce := Tree.merge .right (reopenedClass ++ [disputedClass] ++ reopenedClass)
    first.2.length = 1 ∧ second.2.length = 1 ∧
      atOnce.1.outline Tree.root = second.1.outline Tree.root ∧
        atOnce.1.strictness = second.1.strictness ∧ atOnce.2 = first.2 ++ second.2 :=
  ⟨by decide, by decide +kernel, merge_in_two_steps .right nofun _ _⟩

-- What is dropped in the first step is unknown to the second one and can come back.
example :
    let first := Tree.merge .neither (reopenedClass ++ [disputedClass])
    let second := Tree.merge .neither (first.1 :: reopenedClass)
    let atOnce := Tree.merge .neither (reopenedClass ++ [disputedClass] ++ reopenedClass)
    atOnce.1.declarations.length = 3 ∧ second.1.declarations.length = 4 := by
  decide +kernel

end InterfaceFile
