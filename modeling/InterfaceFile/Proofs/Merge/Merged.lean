import InterfaceFile.Proofs.Merge.Steps

/-!
# A merge without conflicts

While a merge finds no conflict, the entries of every scope are the union of what was declared
there. The invariant is stated along paths of scope names, so that a step inside a scope is seen at
the paths that lead into it and at no other.
-/

namespace InterfaceFile

open Located (below declaredAt)

/-- `merged` has each key of `given` once, in the order in which the keys first came, and says for
    each key what was given for it. -/
structure Unions (given merged : List Node) : Prop where
  order : merged.map Node.key? = (given.map Node.key?).eraseDups
  once : (merged.map Node.key?).Nodup
  united : ∀ n ∈ merged, n.Unites (given.filter fun g => g.key? = n.key?)

namespace Unions

variable {given merged : List Node}

theorem nil : Unions [] [] :=
  ⟨rfl, List.nodup_nil, by simp⟩

theorem mem_keys (h : Unions given merged) {key : Option Key} :
    key ∈ merged.map Node.key? ↔ key ∈ given.map Node.key? := by
  rw [h.order, List.mem_eraseDups]

theorem key_ne {before after : List Node} {old : Node} (h : Unions given (before ++ old :: after)) :
    ∀ n ∈ before ++ after, n.key? ≠ old.key? := by
  intro n inside eq
  have distinct := h.once
  rw [List.map_append, List.map_cons] at distinct
  rcases List.mem_append.1 inside with left | right
  · exact List.disjoint_of_nodup_append distinct (List.mem_map_of_mem left)
      (eq ▸ List.mem_cons_self)
  · have tail := (List.nodup_cons.1 (List.nodup_append.1 distinct).2.1).1
    exact tail (eq ▸ List.mem_map_of_mem right)

theorem covered (h : Unions given merged) {n : Node} (member : n ∈ given) :
    ∃ n' ∈ merged, n'.key? = n.key? ∧ n'.Covers n := by
  obtain ⟨n', inside, key⟩ := List.mem_map.1 (h.mem_keys.2 (List.mem_map_of_mem member))
  exact ⟨n', inside, key, (h.united n' inside).covers n (List.mem_filter.2 ⟨member, by simp [key]⟩)⟩

/-- A new key comes last. -/
theorem add (h : Unions given merged) {node : Node} (fresh : ∀ n ∈ merged, n.key? ≠ node.key?) :
    Unions (given ++ [node]) (merged ++ [node]) := by
  have unseen : node.key? ∉ merged.map Node.key? := by
    simpa using fun n member => fresh n member
  have missing : node.key? ∉ given.map Node.key? := fun inside => unseen (h.mem_keys.2 inside)
  refine ⟨?_, ?_, fun n member => ?_⟩
  · rw [List.map_append, List.map_append, List.eraseDups_append, ← h.order]
    have : [node.key?].removeAll (given.map Node.key?) = [node.key?] := by
      simpa [List.removeAll] using missing
    rw [List.map_singleton, this]
    rfl
  · rw [List.map_append, List.map_singleton, List.nodup_append]
    refine ⟨h.once, List.nodup_singleton _, fun a old b new same => ?_⟩
    rw [List.mem_singleton.1 new] at same
    exact unseen (same ▸ old)
  · rw [List.filter_append]
    rcases List.mem_append.1 member with old | new
    · have other : ¬ node.key? = n.key? := fun same => fresh n old same.symm
      simpa [other] using h.united n old
    · obtain rfl := List.mem_singleton.1 new
      have none : given.filter (fun g => g.key? = n.key?) = [] := by
        refine List.filter_eq_nil_iff.2 fun g inside same => missing ?_
        exact List.mem_map.2 ⟨g, inside, by simpa using same⟩
      simpa [none] using n.unites_singleton

/-- A known key changes the declaration in its place. -/
theorem update {before after : List Node} {old node new : Node}
    (h : Unions given (before ++ old :: after)) (same : old.key? = node.key?)
    (key : new.key? = old.key?)
    (united : new.Unites ((given.filter fun g => g.key? = old.key?) ++ [node])) :
    Unions (given ++ [node]) (before ++ new :: after) := by
  have keys : (before ++ new :: after).map Node.key? = (before ++ old :: after).map Node.key? := by
    simp [key]
  have known : node.key? ∈ given.map Node.key? := by
    rw [← h.mem_keys, ← same]
    exact List.mem_map_of_mem (by simp)
  refine ⟨?_, keys ▸ h.once, fun n member => ?_⟩
  · rw [keys, h.order, List.map_append, List.eraseDups_append]
    have : [node.key?].removeAll (given.map Node.key?) = [] := by
      simpa [List.removeAll] using known
    rw [List.map_singleton, this, List.eraseDups_nil, List.append_nil]
  · rw [List.filter_append]
    have stays : n ∈ before ++ after → n.Unites ((given.filter fun g => g.key? = n.key?) ++
        [node].filter fun g => g.key? = n.key?) := by
      intro inside
      have other : ¬ node.key? = n.key? := fun eq => h.key_ne n inside (eq.symm.trans same.symm)
      have old := h.united n (by simp at inside ⊢; tauto)
      simpa [other] using old
    rcases List.mem_append.1 member with left | right
    · exact stays (List.mem_append_left _ left)
    · rcases List.mem_cons.1 right with rfl | right
      · rw [key]
        simpa [same] using united
      · exact stays (List.mem_append_right _ right)

end Unions

/-- Along a path of scope names the entries hold the union of the declarations. A scope that has no
    entry has no declarations inside. -/
def Gathers : List String → List Located → List Entry → Prop
  | [], ds, es =>
    (∀ e ∈ es, e.dropped = false) ∧ Unions (declaredAt [] ds) (es.map Entry.node)
  | s :: path, ds, es =>
    (∀ e ∈ es, e.node.key? = some (.scope s) → Gathers path (below s ds) e.body) ∧
      ((∀ e ∈ es, e.node.key? ≠ some (.scope s)) → below s ds = [])

namespace Gathers

theorem nil : ∀ path : List String, Gathers path [] []
  | [] => ⟨by simp, .nil⟩
  | _ :: _ => ⟨by simp, fun _ => rfl⟩

variable {ds inner : List Located} {es es' : List Entry} {node : Node} {id : NodeId} {body : List Entry}

theorem once (h : ∀ path, Gathers path ds es) : (es.map fun e => e.node.key?).Nodup := by
  have distinct := (h []).2.once
  rwa [List.map_map] at distinct

/-- One more declaration changes the entry with its key, and is seen at the paths that lead into it. -/
theorem put {x : Entry} (h : ∀ path, Gathers path ds es) (puts : Entry.Puts es x es')
    (key : x.node.key? = node.key?) (stays : x.dropped = false)
    (union : Unions (declaredAt [] ds ++ [node]) (es'.map Entry.node))
    (inside : ∀ s, node.key? = some (.scope s) → ∀ path, Gathers path (below s ds ++ inner) x.body) :
    ∀ path, Gathers path (ds ++ node.declares inner) es'
  | [] => by
    refine ⟨fun e member => ?_, ?_⟩
    · rcases (puts.mem e).1 member with rfl | ⟨old, -⟩
      · exact stays
      · exact (h []).1 e old
    · rw [Located.declaredAt_append, Located.declaredAt_declares]
      exact union
  | s :: path => by
    obtain ⟨old, missing⟩ := h (s :: path)
    by_cases own : node.key? = some (.scope s)
    · rw [Gathers, Located.below_append, Located.below_declares own]
      refine ⟨fun e member eq => ?_, fun none => absurd (key.trans own) (none x puts.own)⟩
      rcases (puts.mem e).1 member with rfl | ⟨-, other⟩
      · exact inside s own path
      · exact absurd (eq.trans (key.trans own).symm) other
    · rw [Gathers, Located.below_append, Located.below_declares_of_ne own, List.append_nil]
      refine ⟨fun e member eq => ?_, fun none => missing (puts.missing none).2⟩
      rcases (puts.mem e).1 member with rfl | ⟨member, -⟩
      · exact absurd (key.symm.trans eq) own
      · exact old e member eq

/-- A step that adds an entry. -/
theorem add (h : ∀ path, Gathers path ds es) (fresh : ∀ e ∈ es, e.node.key? ≠ node.key?)
    (inside : node.isScope = true → ∀ path, Gathers path inner body) :
    ∀ path, Gathers path (ds ++ node.declares inner) (es ++ [.mk id node false body]) := by
  refine put h (Entry.puts_append (once h) fresh) rfl rfl ?_ fun s own => ?_
  · rw [List.map_append]
    exact (h []).2.add (by simpa using fresh)
  · rw [(h [s]).2 fun e member => own ▸ fresh e member, List.nil_append]
    exact inside (Node.isScope_of_key own)

/-- A step that changes an entry. -/
theorem update {before after : List Entry} {e : Entry} {merged : Node}
    (h : ∀ path, Gathers path ds (before ++ e :: after)) (same : e.node.key? = node.key?)
    (key : merged.key? = e.node.key?)
    (united : merged.Unites
      (((declaredAt [] ds).filter fun g => g.key? = e.node.key?) ++ [node]))
    (inside : ∀ s, node.key? = some (.scope s) → ∀ path, Gathers path (below s ds ++ inner) body) :
    ∀ path, Gathers path (ds ++ node.declares inner)
      (before ++ .mk id merged false body :: after) := by
  refine put h (Entry.puts_replace (once h) key) (key.trans same) rfl ?_ inside
  have union := (h []).2
  rw [List.map_append, List.map_cons] at union ⊢
  exact union.update same key united

end Gathers

/-! ## Conflicts stay -/

namespace Merging

variable {m result : Merging} {keep : Keep} {enclosing : String} {node : Node}
  {inside : String → Merging → Merging} {ds inner : List Located}

/-- A run adds conflicts after those that were found before. -/
def Reporting (run : String → Merging → Merging) : Prop :=
  ∀ name (m : Merging), m.Numbered → m.conflicts <+: (run name m).conflicts

theorem conflicts_report (enclosing : String) (old new : Node) (union : Union) :
    m.conflicts <+: (m.report enclosing old new union).conflicts :=
  List.prefix_append _ _

theorem Reporting.enter (h : Reporting inside) (descend : Bool) (name : String)
    (numbered : m.Numbered) : m.conflicts <+: (enter descend inside name m).conflicts := by
  cases descend with
  | true => exact h name m numbered
  | false => exact List.prefix_rfl

theorem Reporting.step (h : Reporting inside) (numbered : m.Numbered)
    (step : Step keep enclosing node inside m result) : m.conflicts <+: result.conflicts := by
  cases step with
  | add fresh run =>
    have later := h.enter node.isScope (node.qualifiedIn enclosing)
      (numbered_start (m.next + 1) m.conflicts)
    exact run ▸ later
  | skip found dropped => exact List.prefix_rfl
  | drop found stays none => exact conflicts_report _ _ _ _
  | @update before after e merged inner found stays some run =>
    have later := h.enter (e.node.unify keep node).descend (merged.qualifiedIn enclosing)
      (numbered.inside (m.report enclosing e.node node (e.node.unify keep node)).conflicts found.mem)
    exact (conflicts_report enclosing e.node node _).trans (run ▸ later)

/-! ## Every step keeps the union -/

/-- What the merge of the statements inside a declaration does: it gathers the declarations `inner`
    on top of those that the scope had, as long as it finds no conflict. -/
def GathersInside (inside : String → Merging → Merging) (inner : List Located) : Prop :=
  ∀ name (n : Merging) ds, n.Numbered → (∀ path, Gathers path ds n.entries) →
    (inside name n).conflicts = [] → ∀ path, Gathers path (ds ++ inner) (inside name n).entries

/-- A run adds conflicts, and while it finds none it gathers what it declares. -/
structure Gathering (run : String → Merging → Merging) (ds : List Located) : Prop where
  reporting : Reporting run
  gathers : GathersInside run ds

/-- Without a conflict the entry and the declaration with its key are united. -/
theorem unites_of_quiet {before after : List Entry} {e : Entry}
    (h : ∀ path, Gathers path ds m.entries) (found : Finds m.entries node.key? before e after)
    (quiet : (m.report enclosing e.node node (e.node.unify keep node)).conflicts = []) :
    ∃ merged, (e.node.unify keep node).node = some merged ∧ merged.key? = e.node.key? ∧
      (e.node.unify keep node).descend = node.isScope ∧
      merged.Unites (((declaredAt [] ds).filter fun g => g.key? = e.node.key?) ++ [node]) := by
  have agree : (e.node.unify keep node).conflict = none := by
    simpa [report] using (List.append_eq_nil_iff.1 quiet).2
  exact ((h []).2.united e.node (List.mem_map_of_mem found.mem)).unify found.key agree

/-- A step that finds no conflict gathers the declaration with what it declares. -/
theorem Gathering.step (deeper : Gathering inside inner) (numbered : m.Numbered)
    (h : ∀ path, Gathers path ds m.entries) (step : Step keep enclosing node inside m result)
    (agree : result.conflicts = []) :
    ∀ path, Gathers path (ds ++ node.declares inner) result.entries := by
  cases step with
  | @add more fresh run =>
    refine Gathers.add h fresh fun scope => ?_
    rw [scope, enter, if_pos rfl] at run
    subst run
    exact deeper.gathers _ _ [] (numbered_start _ _) Gathers.nil agree
  | skip found dropped =>
    rw [(h []).1 _ found.mem] at dropped
    cases dropped
  | drop found stays none =>
    obtain ⟨merged, some, -⟩ := unites_of_quiet h found agree
    rw [some] at none
    cases none
  | @update before after e merged more found stays some run =>
    have more_quiet : (enter (e.node.unify keep node).descend inside (merged.qualifiedIn enclosing)
        { entries := e.body, next := m.next
          conflicts := (m.report enclosing e.node node (e.node.unify keep node)).conflicts
          }).conflicts = [] := run ▸ agree
    have within := numbered.inside
      (m.report enclosing e.node node (e.node.unify keep node)).conflicts found.mem
    have quiet := List.prefix_nil.1 (more_quiet ▸ deeper.reporting.enter _ _ within)
    obtain ⟨merged', some', key, descend, united⟩ := unites_of_quiet h found quiet
    obtain rfl : merged = merged' := Option.some.inj (some.symm.trans some')
    rw [found.split] at h
    refine Gathers.update h found.key key united fun s own => ?_
    have scope : (e.node.unify keep node).descend = true :=
      descend.trans (Node.isScope_of_key own)
    rw [scope, enter, if_pos rfl] at run
    subst run
    refine deeper.gathers _ _ (below s ds) within (fun path => ?_) agree
    exact (h (s :: path)).1 e (by simp) (found.key.trans own)

namespace Gathering

variable {f g run : String → Merging → Merging} {es : List Located}

theorem nil : Gathering (fun _ m => m) [] where
  reporting := fun _ _ _ => List.prefix_rfl
  gathers := fun _ _ _ _ h _ => by rwa [List.append_nil]

theorem append (growing : Growing f) (first : Gathering f ds) (second : Gathering g es) :
    Gathering (fun name m => g name (f name m)) (ds ++ es) where
  reporting := fun name m numbered => (first.reporting name m numbered).trans
    (second.reporting name _ ((growing name m numbered).numbered numbered))
  gathers := by
    intro name m seen numbered before agree
    have next := (growing name m numbered).numbered numbered
    have quiet : (f name m).conflicts = [] :=
      List.prefix_nil.1 (agree ▸ second.reporting name _ next)
    rw [← List.append_assoc]
    exact second.gathers name _ _ next (first.gathers name m seen numbered before quiet) agree

theorem declares (keyed : node.isBlank = false) (deeper : Gathering inside inner) :
    Gathering (fun name m => m.meet keep name node inside) (node.declares inner) where
  reporting := fun name _ numbered =>
    deeper.reporting.step numbered (step_meet keep name inside numbered keyed)
  gathers := fun name _ _ numbered h agree =>
    deeper.step numbered h (step_meet keep name inside numbered keyed) agree

end Gathering

/-- While it finds no conflict, a merge gathers what the trees declare. -/
theorem gathering_mergeInto (keep : Keep) (trees : List Tree) :
    Gathering (Tree.mergeInto keep trees) (trees.flatMap Tree.declarations) :=
  Tree.mergeInto_induction .nil .append (fun keyed _ _ => .declares keyed) trees

end Merging

/-! ## The declarations of the merged tree -/

/-- What is declared is neither an empty line nor a marker. -/
def Located.Proper (ds : List Located) : Prop :=
  ∀ d ∈ ds, d.node.isBlank = false ∧ d.node.sectionMarker? = none

theorem Located.Proper.below {ds : List Located} (h : Proper ds) (s : String) :
    Proper (below s ds) := by
  intro d member
  obtain ⟨outer, inside, eq⟩ := List.mem_filterMap.1 member
  obtain ⟨path, node⟩ := outer
  cases path with
  | nil => cases eq
  | cons s' path =>
    simp only [within?] at eq
    split at eq
    · obtain rfl := Option.some.inj eq
      exact h { path := s' :: path, node } inside
    · cases eq

/-- What unites declarations is neither an empty line nor a marker. -/
theorem Located.Proper.of_unites {ds : List Located} {p : Node → Bool} {n : Node} (h : Proper ds)
    (united : n.Unites ((declaredAt [] ds).filter p)) :
    n.isBlank = false ∧ n.sectionMarker? = none := by
  obtain ⟨given, member, same⟩ := united.decl
  obtain ⟨keyed, plain⟩ := h _ (mem_declaredAt.1 (List.mem_of_mem_filter member))
  refine ⟨?_, (Node.sectionMarker?_congr same).symm.trans plain⟩
  rw [Bool.eq_false_iff, Ne, ← Node.key?_eq_none, ← Node.key?_congr same, Node.key?_eq_none, keyed]
  simp

theorem Located.Proper.declares {node : Node} {inner : List Located} (h : Proper inner)
    (keyed : node.isBlank = false) (plain : node.sectionMarker? = none) :
    Proper (node.declares inner) := by
  intro d member
  rcases List.mem_cons.1 member with rfl | deeper
  · exact ⟨keyed, plain⟩
  · cases hs : node.scope? with
    | none =>
      rw [hs] at deeper
      cases deeper
    | some s =>
      rw [hs] at deeper
      obtain ⟨x, inside, rfl⟩ := List.mem_map.1 deeper
      exact h x inside

theorem Outline.proper_declarationsAll :
    ∀ (os : List Outline) (level : Visibility), Located.Proper (declarationsAll level os)
  | [], level => by simp [declarationsAll, Located.Proper]
  | .mk node body :: rest, level => by
    rw [declarationsAll]
    split
    · exact proper_declarationsAll rest _
    · next plain =>
      intro d member
      rcases List.mem_append.1 member with here | later
      · rw [declarations] at here
        split at here
        · cases here
        · next keyed =>
          refine (proper_declarationsAll body .pub).declares ?_ ?_ d here
          · rw [Node.isBlank_inSection]
            exact Bool.eq_false_iff.2 keyed
          · rw [Node.sectionMarker?_inSection]
            exact plain
      · exact proper_declarationsAll rest level d later

/-- What an entry declares. -/
def Entry.declares (e : Entry) : List Located :=
  e.node.declares (Outline.declarationsAll .pub (Entry.outlines e.body))

/-- The statements of entries that stay declare what the entries declare. -/
theorem Entry.declarationsAll_outlines : ∀ {es : List Entry}, (∀ e ∈ es, e.dropped = false) →
    (∀ e ∈ es, e.node.isBlank = false ∧ e.node.sectionMarker? = none) →
    Outline.declarationsAll .pub (Entry.outlines es) = es.flatMap Entry.declares
  | [], _, _ => rfl
  | .mk id node dropped body :: rest, kept, proper => by
    obtain ⟨stays, later⟩ := List.forall_mem_cons.1 kept
    obtain ⟨⟨keyed, plain⟩, others⟩ := List.forall_mem_cons.1 proper
    obtain rfl : dropped = false := stays
    have marker : (Entry.mk id node false body).outline.node.sectionMarker? = none := plain
    have blank : node.isBlank = false := keyed
    rw [outlines, if_neg (by simp [Entry.dropped]), Outline.declarationsAll, marker]
    simp only
    rw [declarationsAll_outlines later others, List.flatMap_cons, outline, Outline.declarations,
      if_neg (by simp [blank]), Node.inSection_pub]
    rfl

theorem Located.declaredAt_flatMap_declares (es : List Entry) :
    declaredAt [] (es.flatMap Entry.declares) = es.map Entry.node := by
  induction es with
  | nil => rfl
  | cons e rest ih =>
    rw [List.flatMap_cons, declaredAt_append, ih, Entry.declares, declaredAt_declares]
    rfl

theorem Located.below_flatMap_declares {s : String} {es : List Entry}
    (others : ∀ e ∈ es, e.node.key? ≠ some (.scope s)) :
    Located.below s (es.flatMap Entry.declares) = [] := by
  induction es with
  | nil => rfl
  | cons e rest ih =>
    obtain ⟨other, later⟩ := List.forall_mem_cons.1 others
    rw [List.flatMap_cons, below_append, ih later, Entry.declares, below_declares_of_ne other]
    rfl

/-- Along every path the merged declarations are the union of what was declared there. -/
theorem Gathers.unions : ∀ (path : List String) {ds : List Located} {es : List Entry},
    Located.Proper ds → (∀ path, Gathers path ds es) →
    Unions (declaredAt path ds)
      (declaredAt path (Outline.declarationsAll .pub (Entry.outlines es)))
  | path, ds, es, proper, h => by
    obtain ⟨kept, union⟩ := h []
    have plain : ∀ e ∈ es, e.node.isBlank = false ∧ e.node.sectionMarker? = none := by
      intro e member
      exact proper.of_unites (union.united e.node (List.mem_map_of_mem member))
    rw [Entry.declarationsAll_outlines kept plain]
    cases path with
    | nil =>
      rw [Located.declaredAt_flatMap_declares]
      exact union
    | cons s path =>
      obtain ⟨-, missing⟩ := h (s :: path)
      rw [Located.declaredAt_cons, Located.declaredAt_cons]
      by_cases opened : ∃ e ∈ es, e.node.key? = some (.scope s)
      · obtain ⟨e, member, key⟩ := opened
        obtain ⟨before, after, rfl⟩ := List.append_of_mem member
        rw [List.map_append, List.map_cons] at union
        have others : ∀ x ∈ before ++ after, x.node.key? ≠ some (.scope s) := by
          intro x inside eq
          refine union.key_ne x.node ?_ (eq.trans key.symm)
          rw [← List.map_append]
          exact List.mem_map_of_mem inside
        have inner : below s ((before ++ e :: after).flatMap Entry.declares) =
            Outline.declarationsAll .pub (Entry.outlines e.body) := by
          rw [List.flatMap_append, List.flatMap_cons, Located.below_append, Located.below_append,
            Located.below_flatMap_declares fun x left => others x (List.mem_append_left _ left),
            Located.below_flatMap_declares fun x right => others x (List.mem_append_right _ right),
            Entry.declares, Located.below_declares key, List.append_nil, List.nil_append]
        rw [inner]
        exact unions path (proper.below s) fun deeper => (h (s :: deeper)).1 e member key
      · have none : ∀ e ∈ es, e.node.key? ≠ some (.scope s) :=
          fun e member eq => opened ⟨e, member, eq⟩
        rw [missing none, Located.below_flatMap_declares none]
        exact .nil

namespace Tree

theorem proper_declarations (trees : List Tree) : Located.Proper (trees.flatMap declarations) := by
  intro d member
  obtain ⟨t, -, given⟩ := List.mem_flatMap.1 member
  exact Outline.proper_declarationsAll _ _ d given

/-- What a merge without conflicts declares along a path is the union of what the trees declare
    there. -/
theorem unions_merge {keep : Keep} {trees : List Tree} (agree : (merge keep trees).2 = [])
    (path : List String) :
    Unions (declaredAt path (trees.flatMap declarations))
      (declaredAt path (merge keep trees).1.declarations) := by
  have grown := grows_mergeOnto keep trees {} Merging.numbered_empty
  have gathers := (Merging.gathering_mergeInto keep trees).gathers "" {} [] Merging.numbered_empty
    Gathers.nil agree
  have declared : (merge keep trees).1.declarations =
      Outline.declarationsAll .pub (Entry.outlines (mergeOnto keep {} trees).entries) := by
    rw [declarations]
    exact congrArg _ (outline_ofEntries _ grown)
  rw [declared]
  exact Gathers.unions path (proper_declarations trees) gathers

end Tree

/-- A merge without conflicts is the union of the merged trees. In every scope, each declaration of
    each tree is covered by exactly one declaration with its key; each declaration and each comment
    comes from a declaration with the same key of some tree; and the keys stand in the order in
    which they first came. -/
theorem merge_without_conflicts_is_union (keep : Keep) (trees : List Tree)
    (agree : (Tree.merge keep trees).2 = []) (path : List String) :
    let given := declaredAt path (trees.flatMap Tree.declarations)
    let merged := declaredAt path (Tree.merge keep trees).1.declarations
    (∀ n ∈ given, ∃ n', merged.filter (fun x => x.key? = n.key?) = [n'] ∧ n'.Covers n) ∧
      (∀ n' ∈ merged, (∃ n ∈ given, n.key? = n'.key? ∧ n.decl = n'.decl) ∧
        ∀ c ∈ n'.comments, ∃ n ∈ given, n.key? = n'.key? ∧ c ∈ n.comments) ∧
      merged.map Node.key? = (given.map Node.key?).eraseDups := by
  intro given merged
  have union : Unions given merged := Tree.unions_merge agree path
  refine ⟨fun n member => ?_, fun n' member => ?_, union.order⟩
  · obtain ⟨n', inside, key, covers⟩ := union.covered member
    refine ⟨n', ?_, covers⟩
    obtain ⟨before, after, split⟩ := List.append_of_mem inside
    have others := (split ▸ union).key_ne
    have none : ∀ xs, xs ⊆ before ++ after → xs.filter (fun x => x.key? = n.key?) = [] := by
      intro xs sub
      refine List.filter_eq_nil_iff.2 fun x member eq => others x (sub member) ?_
      rw [key]
      simpa using eq
    rw [split, List.filter_append, none before (List.subset_append_left _ _),
      List.filter_cons_of_pos (by simp [key]), none after (List.subset_append_right _ _)]
    rfl
  · obtain ⟨-, ⟨n, inside, decl⟩, comments⟩ := union.united n' member
    obtain ⟨given, key⟩ := List.mem_filter.1 inside
    refine ⟨⟨n, given, by simpa using key, decl⟩, fun c stated => ?_⟩
    obtain ⟨n, inside, stated⟩ := comments c stated
    obtain ⟨given, key⟩ := List.mem_filter.1 inside
    exact ⟨n, given, by simpa using key, stated⟩

/-- Two files that reopen a class. The second one gives the superclass, and its private section holds
    the method that the first one calls private by itself. -/
def reopenedClass : List Tree :=
  let method (name : String) (visibility : Visibility) (comment : String) : Outline :=
    .mk { decl := .method { name, visibility }, comments := [{ text := comment }] } []
  [.ofOutlines none [.mk (.classDef "A" none) [method "f" .priv "first", method "g" .pub ""]],
    .ofOutlines none [.mk (.classDef "A" (some "B"))
      [method "h" .pub "", .mk { decl := .call { callee := .visibility .priv } } [],
        method "f" .pub "second"]]]

theorem merge_without_conflicts_is_union_reopenedClass :
    (Tree.merge .neither reopenedClass).2 = [] ∧
      (declaredAt ["A"] (Tree.merge .neither reopenedClass).1.declarations).map Node.key? =
        [some (.method "f" false), some (.method "g" false), some (.method "h" false)] := by
  have agree : (Tree.merge .neither reopenedClass).2 = [] := by decide
  have union := merge_without_conflicts_is_union .neither reopenedClass agree ["A"]
  exact ⟨agree, union.2.2.trans (by decide)⟩

/-- A third file that reopens the class and calls the private method public. -/
def disputedClass : Tree :=
  .ofOutlines (some "strict") [.mk (.classDef "A" none) [.mk { decl := .method { name := "f" } } []]]

end InterfaceFile
