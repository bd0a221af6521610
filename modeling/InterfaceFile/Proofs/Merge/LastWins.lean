import InterfaceFile.Proofs.Merge.Merged
import InterfaceFile.Proofs.Merge.Survivors

/-!
# The last declaration wins

A merge that keeps the later of two declarations holds at every position what the declarations there
have left, and its conflicts are their clashes, in order. Positions do not depend on one another,
since such a merge enters every scope and drops nothing.
-/

namespace InterfaceFile

open Located (below declaredAt occurrences clashes)

/-! ## Entries by position -/

namespace Entry

/-- The declaration at a position. -/
def lookup : List String → Key → List Entry → Option Node
  | [], key, es => (withKey key es).map Entry.node
  | s :: path, key, es => (withKey (.scope s) es).bind fun e => lookup path key e.body

/-- At every position the entries have what is left of the declarations there. -/
def Latest (ds : List Located) (es : List Entry) : Prop :=
  ∀ path key, lookup path key es = survivor (occurrences path key ds)

namespace Latest

variable {ds inner : List Located} {es es' : List Entry} {e : Entry} {node : Node} {key : Key}

theorem nil : Latest [] [] := by
  intro path key
  cases path <;> rfl

theorem survivor_eq (h : Latest ds es) (key : Key) :
    survivor (occurrences [] key ds) = (withKey key es).map Entry.node :=
  (h [] key).symm

theorem inside (h : Latest ds es) {s : String} (found : withKey (.scope s) es = some e) :
    Latest (below s ds) e.body := by
  intro path key
  have here := h (s :: path) key
  rwa [Located.occurrences_cons, lookup, found, Option.bind_some] at here

/-- Nothing is declared inside a scope that has no entry. -/
theorem below_eq_nil (h : Latest ds es) (proper : Located.Proper ds) {s : String}
    (missing : withKey (.scope s) es = none) : below s ds = [] := by
  rw [List.eq_nil_iff_forall_not_mem]
  intro d member
  obtain ⟨key, named⟩ := Merging.exists_key ((proper.below s) d member).1
  have here := h (s :: d.path) key
  rw [lookup, missing, Option.bind_none] at here
  have none := survivor_eq_none.1 here.symm
  rw [Located.occurrences_cons] at none
  have occurs : d.node ∈ occurrences d.path key (below s ds) :=
    List.mem_filter.2 ⟨Located.mem_declaredAt.2 member, by simp [named]⟩
  rw [none] at occurs
  cases occurs

/-- One entry is put in for a declaration, with what is left of the declarations with its key. -/
theorem put (h : Latest ds es) (named : node.key? = some key)
    (put : ∀ k, withKey k es' = if k = key then some e else withKey k es)
    (own : e.node = overwrite (survivor (occurrences [] key ds)) node)
    (inside : ∀ s, key = .scope s → Latest (below s ds ++ inner) e.body) :
    Latest (ds ++ node.declares inner) es'
  | [], k => by
    have declared : occurrences [] k (node.declares inner) = if k = key then [node] else [] := by
      rw [occurrences, Located.declaredAt_declares]
      by_cases same : k = key
      · simp [same, named]
      · have other : ¬ key = k := fun eq => same eq.symm
        simp [same, named, other]
    rw [lookup, put, Located.occurrences_append, declared]
    split
    · next same => rw [same, survivor_append, ← own]; rfl
    · rw [List.append_nil, h.survivor_eq]
  | s :: path, k => by
    rw [lookup, put, Located.occurrences_cons, Located.below_append]
    split
    · next same =>
      rw [Located.below_declares (named.trans (congrArg some same.symm))]
      exact inside s same.symm path k
    · next other =>
      have elsewhere : node.key? ≠ some (.scope s) := by
        intro eq
        exact other (Option.some.inj (eq.symm.trans named))
      rw [Located.below_declares_of_ne elsewhere, List.append_nil, ← Located.occurrences_cons]
      exact h (s :: path) k

end Latest

end Entry

/-! ## Every run overwrites -/

namespace Merging

open Entry (Latest)

/-- A run that merges the declarations `inner` leaves the latest ones and reports their clashes. -/
structure Overwrites (run : String → Merging → Merging) (inner : List Located) : Prop where
  keeping : Keeping run
  proper : Located.Proper inner
  leaves : ∀ name (m : Merging) ds, m.Numbered → Entry.Whole m.entries → Located.Proper ds →
    Latest ds m.entries → Latest (ds ++ inner) (run name m).entries ∧
      (run name m).conflicts = m.conflicts ++ (clashes name ds inner).map Prod.snd

variable {name : String} {node : Node} {inside : String → Merging → Merging} {m result : Merging}
  {ds inner : List Located} {key : Key}

/-- The run inside a declaration, if it is entered. -/
theorem Overwrites.enter (h : Overwrites inside inner) (numbered : m.Numbered)
    (whole : Entry.Whole m.entries) (proper : Located.Proper ds)
    (latest : ∀ s, node.key? = some (.scope s) → Latest (below s ds) m.entries) :
    (∀ s, node.key? = some (.scope s) →
        Latest (below s ds ++ inner) (Merging.enter node.isScope inside name m).entries) ∧
      (Merging.enter node.isScope inside name m).conflicts =
        m.conflicts ++ Located.innerConflicts name ds inner node := by
  rw [Located.innerConflicts]
  cases hs : node.scope? with
  | none =>
    have leaf : node.isScope = false := by simp [Node.isScope, hs]
    refine ⟨fun s named => ?_, ?_⟩
    · rw [Node.isScope_of_key named] at leaf
      cases leaf
    · rw [Merging.enter, leaf, List.append_nil]
      rfl
  | some scope =>
    have opens : node.isScope = true := by simp [Node.isScope, hs]
    have named : node.key? = some (.scope scope.name) := Node.key?_eq_scope.2 ⟨scope, hs, rfl⟩
    have run : Merging.enter node.isScope inside name m = inside name m := by
      rw [Merging.enter, opens, if_pos rfl]
    rw [run]
    refine ⟨fun s key => ?_, ?_⟩
    · exact (h.leaves name m _ numbered whole (proper.below s) (latest s key)).1
    · exact (h.leaves name m _ numbered whole (proper.below _) (latest _ named)).2

/-- A declaration without an entry says what is left, and clashes with nothing. -/
theorem Overwrites.add {more : Merging} (h : Overwrites inside inner) (proper : Located.Proper ds)
    (latest : Latest ds m.entries) (named : node.key? = some key)
    (fresh : ∀ e ∈ m.entries, e.node.key? ≠ some key)
    (run : more = Merging.enter node.isScope inside (node.qualifiedIn name)
      { next := m.next + 1, conflicts := m.conflicts }) :
    Latest (ds ++ node.declares inner) (m.entries ++ [.mk m.next node false more.entries]) ∧
      more.conflicts = m.conflicts ++ (clashes name ds (node.declares inner)).map Prod.snd := by
  have held := latest.survivor_eq key
  have none := Entry.withKey_of_fresh fresh
  rw [none] at held
  -- Nothing was declared inside a scope that had no entry, so its merge begins with nothing.
  have start : ∀ s, node.key? = some (.scope s) → Latest (below s ds) [] := by
    intro s scope
    obtain rfl := Option.some.inj (named.symm.trans scope)
    rw [latest.below_eq_nil proper none]
    exact .nil
  obtain ⟨deeper, conflicts⟩ :=
    h.enter (numbered_start (m.next + 1) m.conflicts) .nil proper start
  rw [← run] at deeper conflicts
  refine ⟨latest.put (e := .mk m.next node false more.entries) named
    (Entry.withKey_append fresh named) ?_ fun s scope => deeper s (scope ▸ named), ?_⟩
  · rw [held]
    rfl
  · rw [conflicts, Located.clashes_declares name ds inner named, held]
    simp [Located.clash, named, held, overwrite]

/-- A declaration with an entry takes its place, and clashes with it if the entry says something
    else. -/
theorem Overwrites.update {before after : List Entry} {e : Entry} {merged : Node} {more : Merging}
    (h : Overwrites inside inner) (numbered : m.Numbered) (whole : Entry.Whole m.entries)
    (proper : Located.Proper ds) (latest : Latest ds m.entries) (named : node.key? = some key)
    (found : Finds m.entries (some key) before e after)
    (left : (e.node.unify .right node).node = some merged)
    (run : more = Merging.enter node.isScope inside (merged.qualifiedIn name)
      { entries := e.body, next := m.next,
        conflicts := (m.report name e.node node (e.node.unify .right node)).conflicts }) :
    Latest (ds ++ node.declares inner) (before ++ .mk e.id merged false more.entries :: after) ∧
      more.conflicts = m.conflicts ++ (clashes name ds (node.declares inner)).map Prod.snd := by
  have same : e.node.key? = node.key? := found.key.trans named.symm
  have held := latest.survivor_eq key
  have known := Entry.withKey_of_finds found
  rw [known] at held
  have start : ∀ s, node.key? = some (.scope s) → Latest (below s ds) e.body := by
    intro s scope
    obtain rfl := Option.some.inj (named.symm.trans scope)
    exact latest.inside known
  have key' : merged.key? = some key := (Node.key?_unify same left).trans found.key
  obtain ⟨deeper, conflicts⟩ := h.enter (numbered.inside _ found.mem)
    (whole.of_mem found.mem).2 proper start
  rw [← run] at deeper conflicts
  have own : merged = overwrite (survivor (occurrences [] key ds)) node := by
    rw [held, Option.map_some, overwrite, left]
    rfl
  refine ⟨latest.put (e := .mk e.id merged false more.entries) named
    (Entry.withKey_replace found key') own fun s scope => deeper s (scope ▸ named), ?_⟩
  have clash : Located.clash name ds { path := [], node } =
      (e.node.unify .right node).conflict.map fun kind =>
        { kind, name := e.node.qualifiedIn name, left := e.node.loc, right := node.loc } := by
    cases conflict : (e.node.unify .right node).conflict <;>
      simp [Located.clash, named, held, Located.scopeName, conflict]
  rw [conflicts, Located.clashes_declares name ds inner named, ← own, clash, ← List.append_assoc]
  rfl

theorem overwrites_step (h : Overwrites inside inner) (numbered : m.Numbered)
    (whole : Entry.Whole m.entries) (proper : Located.Proper ds) (latest : Latest ds m.entries)
    (named : node.key? = some key) (step : Step .right name node inside m result) :
    Latest (ds ++ node.declares inner) result.entries ∧
      result.conflicts = m.conflicts ++ (clashes name ds (node.declares inner)).map Prod.snd := by
  cases step with
  | add fresh run => exact h.add proper latest named (named ▸ fresh) run
  | skip found dropped =>
    rw [(whole.of_mem found.mem).1] at dropped
    cases dropped
  | drop found stays none => exact absurd (Node.eq_neither_of_unify found.key none) (by decide)
  | update found stays left run =>
    rw [Node.descend_unify_right found.key] at run
    exact h.update numbered whole proper latest named (named ▸ found) left run

/-- Tree after tree, the later declaration takes the place of the earlier one. -/
theorem overwrites_mergeInto (trees : List Tree) :
    Overwrites (Tree.mergeInto .right trees) (trees.flatMap Tree.declarations) := by
  apply Tree.mergeInto_induction (Q := Overwrites)
  · refine ⟨fun name m numbered whole => whole, by simp [Located.Proper], ?_⟩
    intro name m ds numbered whole proper latest
    simpa [clashes] using latest
  · intro f g ds' es' grows first second
    have both : ∀ {ds es : List Located}, Located.Proper ds → Located.Proper es →
        Located.Proper (ds ++ es) :=
      fun one two d member => (List.mem_append.1 member).elim (one d) (two d)
    refine ⟨fun name m numbered whole => ?_, both first.proper second.proper, ?_⟩
    · exact second.keeping name _ ((grows name m numbered).numbered numbered)
        (first.keeping name m numbered whole)
    · intro name m ds numbered whole proper latest
      obtain ⟨latest₁, conflicts₁⟩ := first.leaves name m ds numbered whole proper latest
      obtain ⟨latest₂, conflicts₂⟩ := second.leaves name (f name m) (ds ++ ds')
        ((grows name m numbered).numbered numbered) (first.keeping name m numbered whole)
        (both proper first.proper) latest₁
      refine ⟨List.append_assoc .. ▸ latest₂, ?_⟩
      rw [conflicts₂, conflicts₁, Located.clashes_append, List.map_append, List.append_assoc]
  · intro node inside inner keyed plain grows h
    obtain ⟨key, named⟩ := exists_key keyed
    refine ⟨fun name m numbered whole => ?_, h.proper.declares keyed plain, ?_⟩
    · exact whole_step (by decide) numbered h.keeping whole
        (step_meet .right name inside numbered keyed)
    · intro name m ds numbered whole proper latest
      exact overwrites_step h numbered whole proper latest named
        (step_meet .right name inside numbered keyed)

end Merging

/-! ## The declarations of the merged tree -/

namespace Entry

variable {es before after : List Entry} {e : Entry} {key : Key}

/-- Where keys are different, one entry has a key and the others do not. -/
theorem others_of_finds (distinct : (es.map fun e => e.node.key?).Nodup)
    (found : Merging.Finds es (some key) before e after) :
    ∀ x ∈ before ++ after, x.node.key? ≠ some key := by
  rw [found.split, List.map_append, List.map_cons] at distinct
  have tail := (List.nodup_cons.1 (List.nodup_append.1 distinct).2.1).1
  intro x member same
  rcases List.mem_append.1 member with left | right
  · exact found.first x left same
  · exact tail (List.mem_map.2 ⟨x, right, same.trans found.key.symm⟩)

theorem keys_outlines : ∀ {es : List Entry}, (∀ e ∈ es, e.dropped = false) →
    (outlines es).map (fun o => o.node.key?) = es.map fun e => e.node.key?
  | [], _ => rfl
  | .mk id node dropped body :: rest, kept => by
    obtain ⟨stays, later⟩ := List.forall_mem_cons.1 kept
    rw [outlines, if_neg (by simp [stays]), List.map_cons, List.map_cons, keys_outlines later]
    rfl

/-- What entries with different keys declare with a key is what the entry with the key says. -/
theorem filter_map_node (distinct : (es.map fun e => e.node.key?).Nodup) (key : Key) :
    (es.map Entry.node).filter (fun n => n.key? = some key) =
      ((withKey key es).map Entry.node).toList := by
  have none : ∀ {xs : List Entry}, (∀ x ∈ xs, x.node.key? ≠ some key) →
      (xs.map Entry.node).filter (fun n => n.key? = some key) = [] := by
    intro xs others
    simpa [List.filter_eq_nil_iff] using others
  rcases Merging.fresh_or_finds (some key) es with fresh | ⟨before, e, after, found⟩
  · rw [none fresh, withKey_of_fresh fresh]
    rfl
  · have others := others_of_finds distinct found
    rw [withKey_of_finds found, found.split, List.map_append, List.map_cons, List.filter_append,
      none fun x left => others x (List.mem_append_left _ left),
      List.filter_cons_of_pos (by simpa using found.key),
      none fun x right => others x (List.mem_append_right _ right)]
    rfl

/-- What entries with different keys declare inside a scope is declared in the entry of the scope. -/
theorem below_flatMap_of_finds {s : String} (distinct : (es.map fun e => e.node.key?).Nodup)
    (found : Merging.Finds es (some (.scope s)) before e after) :
    below s (es.flatMap Entry.declares) = Outline.declarationsAll .pub (outlines e.body) := by
  have others := others_of_finds distinct found
  rw [found.split, List.flatMap_append, List.flatMap_cons, Located.below_append,
    Located.below_append,
    Located.below_flatMap_declares fun x left => others x (List.mem_append_left _ left),
    Located.below_flatMap_declares fun x right => others x (List.mem_append_right _ right),
    Entry.declares, Located.below_declares found.key, List.append_nil, List.nil_append]

/-- Entries that stay declare at each position what they have there. -/
theorem occurrences_outlines (key : Key) : ∀ (path : List String) {es : List Entry}, Whole es →
    Outline.Normal (outlines es) →
    occurrences path key (Outline.declarationsAll .pub (outlines es)) = (lookup path key es).toList
  | path, es, whole, normal => by
    have kept : ∀ e ∈ es, e.dropped = false := fun e member => (whole.of_mem member).1
    have normal_of : ∀ e ∈ es, (e.node.isBlank = false ∧ e.node.sectionMarker? = none) ∧
        Outline.Normal (outlines e.body) := by
      intro e member
      have stated := mem_outlines.2 ⟨e, member, kept e member, rfl⟩
      obtain ⟨keyed, plain, inside⟩ := normal.of_mem stated
      exact ⟨⟨keyed, plain⟩, inside⟩
    have distinct := normal.nodup_keys
    rw [keys_outlines kept] at distinct
    rw [declarationsAll_outlines kept fun e member => (normal_of e member).1]
    cases path with
    | nil => rw [occurrences, Located.declaredAt_flatMap_declares, filter_map_node distinct, lookup]
    | cons s path =>
      rw [Located.occurrences_cons, lookup]
      rcases Merging.fresh_or_finds (some (.scope s)) es with fresh | ⟨before, e, after, found⟩
      · rw [Located.below_flatMap_declares fresh, withKey_of_fresh fresh]
        rfl
      · rw [below_flatMap_of_finds distinct found, withKey_of_finds found, Option.bind_some]
        exact occurrences_outlines key path (whole.of_mem found.mem).2 (normal_of e found.mem).2

end Entry

namespace Tree

/-- A merge that keeps the later declaration has at each position what is left of the declarations
    there, and its conflicts are their clashes. -/
theorem merge_right (trees : List Tree) :
    (∀ path key, occurrences path key (merge .right trees).1.declarations =
        (survivor (occurrences path key (trees.flatMap declarations))).toList) ∧
      (merge .right trees).2 = (clashes "" [] (trees.flatMap declarations)).map Prod.snd := by
  have runs := Merging.overwrites_mergeInto trees
  obtain ⟨latest, conflicts⟩ := runs.leaves "" {} [] Merging.numbered_empty .nil
    (by simp [Located.Proper]) .nil
  have whole := runs.keeping "" {} Merging.numbered_empty .nil
  have normal := Merging.normalizing_mergeInto .right trees "" {} Merging.numbered_empty .nil
  refine ⟨fun path key => ?_, conflicts⟩
  rw [declarations, outline_merge]
  exact (Entry.occurrences_outlines key path whole normal).trans (congrArg _ (latest path key))

end Tree

/-- If the later of two declarations is kept, the last one wins. At a position that is declared at
    all, and is not that of a scope, the merged tree has one declaration, which says what the last one
    says. The conflicts are the clashes of the declarations, in order, and at the position there are
    as many as there are declarations that do not say what the one before them says. -/
theorem keep_right_keeps_the_last (trees : List Tree) (path : List String) {key : Key}
    (leaf : ∀ s, key ≠ .scope s) {last : Node}
    (occurs : (occurrences path key (trees.flatMap Tree.declarations)).getLast? = some last) :
    let raised := clashes "" [] (trees.flatMap Tree.declarations)
    (∃ n, occurrences path key (Tree.merge .right trees).1.declarations = [n] ∧
        n.stripped = last.stripped) ∧
      (Tree.merge .right trees).2 = raised.map Prod.snd ∧
      raised.countP (fun c => c.1.path = path ∧ c.1.node.key? = some key) =
        changes (occurrences path key (trees.flatMap Tree.declarations)) := by
  intro raised
  obtain ⟨declared, conflicts⟩ := Tree.merge_right trees
  have named := Located.key?_of_mem_occurrences path key (trees.flatMap Tree.declarations)
  have stated := stripped_survivor named leaf
  rw [occurs] at stated
  obtain ⟨n, left, equal⟩ := Option.map_eq_some_iff.1 stated
  have counted := Located.countP_clashes "" path leaf [] (trees.flatMap Tree.declarations)
  rw [List.nil_append] at counted
  refine ⟨⟨n, ?_, equal⟩, conflicts, ?_⟩
  · rw [declared, left]
    rfl
  · rw [← counted]
    exact (Nat.zero_add _).symm

/-- The class of three files: the last one calls a method public that was private in both others. -/
theorem keep_right_keeps_the_last_disputedClass :
    let trees := reopenedClass ++ [disputedClass]
    (∃ n, occurrences ["A"] (.method "f" false) (Tree.merge .right trees).1.declarations = [n] ∧
        n.stripped = { decl := .method { name := "f" } }) ∧
      (clashes "" [] (trees.flatMap Tree.declarations)).countP
        (fun c => c.1.path = ["A"] ∧ c.1.node.key? = some (.method "f" false)) = 1 := by
  intro trees
  have occurs : (occurrences ["A"] (.method "f" false) (trees.flatMap Tree.declarations)).getLast? =
      some { decl := .method { name := "f" } } := by decide
  have counted : changes (occurrences ["A"] (.method "f" false)
      (trees.flatMap Tree.declarations)) = 1 := by decide
  obtain ⟨one, -, count⟩ := keep_right_keeps_the_last trees ["A"] (by simp) occurs
  exact ⟨one, count.trans counted⟩

end InterfaceFile
