import InterfaceFile.Proofs.Merge.Agreement
import Mathlib.Data.Finset.Dedup

/-!
# The order of merged trees

If neither of two declarations that disagree stays, then what a merge leaves is told by the set of
what was declared. A key is dropped once two of its declarations disagree; what is not dropped says
what all its declarations say; and inside a scope that stays all its bodies are merged. None of this
depends on the order in which trees come, and the absence of conflicts does not either, whatever the
policy.
-/

namespace InterfaceFile

open Located (declaredAt)

/-! ## Entries told by what was declared -/

/-- The entries are those that the declarations come to if nothing that disagrees stays. -/
inductive Tallies : List Located → List Entry → Prop
  | mk {ds : List Located} {es : List Entry} (once : (es.map fun e => e.node.key?).Nodup)
      (known : ∀ n ∈ declaredAt [] ds, ∃ e ∈ es, e.node.key? = n.key?)
      (kept : ∀ e ∈ es, e.dropped = false →
        e.node.Unites ((declaredAt [] ds).filter fun n => n.key? = e.node.key?))
      (dropped : ∀ e ∈ es, e.dropped = true → ∃ a ∈ declaredAt [] ds, ∃ b ∈ declaredAt [] ds,
        a.key? = e.node.key? ∧ b.key? = e.node.key? ∧ ¬ a.Agrees b)
      (outside : ∀ s, (∀ e ∈ es, e.node.key? ≠ some (.scope s)) → Located.below s ds = [])
      (inside : ∀ e ∈ es, e.dropped = false → ∀ s, e.node.key? = some (.scope s) →
        Tallies (Located.below s ds) e.body) :
      Tallies ds es

/-- What the entry with the key of a declaration has to be after it. -/
structure TalliesEntry (ds : List Located) (node : Node) (inner : List Located) (x : Entry) :
    Prop where
  key : x.node.key? = node.key?
  kept : x.dropped = false →
    x.node.Unites (((declaredAt [] ds).filter fun n => n.key? = node.key?) ++ [node])
  dropped : x.dropped = true → ∃ a ∈ declaredAt [] ds ++ [node], ∃ b ∈ declaredAt [] ds ++ [node],
    a.key? = node.key? ∧ b.key? = node.key? ∧ ¬ a.Agrees b
  inside : x.dropped = false → ∀ s, node.key? = some (.scope s) →
    Tallies (Located.below s ds ++ inner) x.body

section Tallies

variable {ds inner : List Located} {es es' before after : List Entry} {node : Node} {x : Entry}

theorem Tallies.nil : Tallies [] [] :=
  .mk List.nodup_nil (by simp [declaredAt]) (by simp) (by simp) (fun _ _ => rfl) (by simp)

theorem Tallies.once (h : Tallies ds es) : (es.map fun e => e.node.key?).Nodup := by
  obtain ⟨once, -⟩ := h
  exact once

/-- One more declaration changes the entry with its key and no other. -/
theorem Tallies.put (h : Tallies ds es) (puts : Entry.Puts es x es')
    (entry : TalliesEntry ds node inner x) : Tallies (ds ++ node.declares inner) es' := by
  obtain ⟨-, known, kept, dropped, outside, inside⟩ := h
  have declared : declaredAt [] (ds ++ node.declares inner) = declaredAt [] ds ++ [node] := by
    rw [Located.declaredAt_append, Located.declaredAt_declares]
  have elsewhere : ∀ s, node.key? ≠ some (.scope s) →
      Located.below s (ds ++ node.declares inner) = Located.below s ds := by
    intro s other
    rw [Located.below_append, Located.below_declares_of_ne other, List.append_nil]
  refine .mk puts.once ?_ ?_ ?_ ?_ ?_
  · rw [declared]
    exact puts.known entry.key known
  · intro e member stays
    rw [declared, List.filter_append]
    rcases (puts.mem e).1 member with rfl | ⟨old, other⟩
    · simpa [entry.key] using entry.kept stays
    · rw [entry.key] at other
      simpa [other.symm] using kept e old stays
  · intro e member gone
    rw [declared]
    rcases (puts.mem e).1 member with rfl | ⟨old, -⟩
    · rw [entry.key]
      exact entry.dropped gone
    · obtain ⟨a, ha, b, hb, rest⟩ := dropped e old gone
      exact ⟨a, List.mem_append_left _ ha, b, List.mem_append_left _ hb, rest⟩
  · intro s none
    obtain ⟨other, before⟩ := puts.missing none
    rw [elsewhere s (entry.key ▸ other)]
    exact outside s before
  · intro e member stays s named
    rcases (puts.mem e).1 member with rfl | ⟨old, other⟩
    · have scope : node.key? = some (.scope s) := entry.key.symm.trans named
      rw [Located.below_append, Located.below_declares scope]
      exact entry.inside stays s scope
    · rw [elsewhere s fun eq => other (named.trans (eq.symm.trans entry.key.symm))]
      exact inside e old stays s named

/-- The entry with a known key makes way. -/
theorem Tallies.replace {e : Entry} (h : Tallies ds (before ++ e :: after))
    (same : e.node.key? = node.key?) (entry : TalliesEntry ds node inner x) :
    Tallies (ds ++ node.declares inner) (before ++ x :: after) :=
  h.put (Entry.puts_replace h.once (entry.key.trans same.symm)) entry

end Tallies

/-! ## Every step keeps the tally -/

namespace Merging

/-- A run adds what it declares to the tally. -/
def TalliesInside (run : String → Merging → Merging) (ds : List Located) : Prop :=
  ∀ name (m : Merging) seen, m.Numbered → Tallies seen m.entries →
    Tallies (seen ++ ds) (run name m).entries

variable {name : String} {node : Node} {inside : String → Merging → Merging}
  {m result : Merging} {seen inner : List Located}

/-- The entry of a new key has the one declaration and what was merged inside it. -/
theorem talliesEntry_add {more : Merging} (tallies : Tallies seen m.entries)
    (deeper : TalliesInside inside inner) (fresh : ∀ e ∈ m.entries, e.node.key? ≠ node.key?)
    (run : more = enter node.isScope inside (node.qualifiedIn name)
      { next := m.next + 1, conflicts := m.conflicts }) :
    TalliesEntry seen node inner (.mk m.next node false more.entries) := by
  obtain ⟨-, known, -, -, outside, -⟩ := tallies
  constructor
  · rfl
  · intro _
    have unseen : (declaredAt [] seen).filter (fun n => n.key? = node.key?) = [] := by
      apply List.filter_eq_nil_iff.2
      intro n given same
      obtain ⟨e, member, key⟩ := known n given
      exact fresh e member (key.trans (by simpa using same))
    rw [unseen]
    exact node.unites_singleton
  · intro gone
    exact absurd gone Bool.false_ne_true
  · intro _ s named
    rw [outside s fun e member => named ▸ fresh e member]
    show Tallies ([] ++ inner) more.entries
    rw [run, enter, Node.isScope_of_key named]
    exact deeper _ _ [] (numbered_start _ _) .nil

/-- A dropped entry stays dropped, and two of the declarations seen before disagree. -/
theorem talliesEntry_skip {e : Entry} (tallies : Tallies seen m.entries) (member : e ∈ m.entries)
    (same : e.node.key? = node.key?) (gone : e.dropped = true) : TalliesEntry seen node inner e := by
  obtain ⟨-, -, -, dropped, -, -⟩ := tallies
  constructor
  · exact same
  · intro stays
    rw [gone] at stays
    cases stays
  · intro _
    obtain ⟨a, ha, b, hb, keys⟩ := dropped e member gone
    rw [same] at keys
    exact ⟨a, List.mem_append_left _ ha, b, List.mem_append_left _ hb, keys⟩
  · intro stays
    rw [gone] at stays
    cases stays

/-- An entry is dropped because one of the declarations seen before disagrees with the new one. -/
theorem talliesEntry_drop {e : Entry} (tallies : Tallies seen m.entries) (member : e ∈ m.entries)
    (same : e.node.key? = node.key?) (stays : e.dropped = false)
    (none : (e.node.unify .neither node).node = none) :
    TalliesEntry seen node inner (.mk e.id e.node true e.body) := by
  obtain ⟨-, -, kept, -, -, -⟩ := tallies
  have united := kept e member stays
  constructor
  · exact same
  · intro stays
    exact absurd stays.symm Bool.false_ne_true
  · intro _
    obtain ⟨n, given, decl⟩ := united.decl
    obtain ⟨declared, key⟩ := List.mem_filter.1 given
    have own : n.key? = node.key? := by
      rw [same] at key
      simpa using key
    refine ⟨n, List.mem_append_left _ declared, node, by simp, own, rfl, fun agrees => ?_⟩
    have agree : (e.node.unify .neither node).conflict = Option.none :=
      Node.conflict_of_agrees same (agrees.congr decl)
    obtain ⟨merged, some, -⟩ := united.unify same agree
    rw [none] at some
    cases some
  · intro stays
    exact absurd stays.symm Bool.false_ne_true

/-- An entry that is not dropped goes on to say what all its declarations say. -/
theorem talliesEntry_update {e : Entry} {merged : Node} {more : Merging} (numbered : m.Numbered)
    (tallies : Tallies seen m.entries) (deeper : TalliesInside inside inner)
    (member : e ∈ m.entries) (same : e.node.key? = node.key?) (stays : e.dropped = false)
    (some : (e.node.unify .neither node).node = some merged)
    (run : more = enter (e.node.unify .neither node).descend inside (merged.qualifiedIn name)
      { entries := e.body, next := m.next,
        conflicts := (m.report name e.node node (e.node.unify .neither node)).conflicts }) :
    TalliesEntry seen node inner (.mk e.id merged false more.entries) := by
  obtain ⟨-, -, kept, -, -, within⟩ := tallies
  have agree := Node.conflict_unify_neither same some
  obtain ⟨merged', some', key, descend, united⟩ := (kept e member stays).unify same agree
  obtain rfl : merged = merged' := Option.some.inj (some.symm.trans some')
  constructor
  · exact key.trans same
  · intro _
    rw [same] at united
    exact united
  · intro gone
    exact absurd gone Bool.false_ne_true
  · intro _ s named
    have scope : (e.node.unify .neither node).descend = true := by
      rw [descend]
      exact Node.isScope_of_key named
    show Tallies (Located.below s seen ++ inner) more.entries
    rw [run, enter, scope]
    exact deeper _ _ _ (numbered.inside _ member) (within e member stays s (same.trans named))

theorem tallies_step (numbered : m.Numbered) (tallies : Tallies seen m.entries)
    (deeper : TalliesInside inside inner) (step : Step .neither name node inside m result) :
    Tallies (seen ++ node.declares inner) result.entries := by
  cases step with
  | add fresh run =>
    exact tallies.put (Entry.puts_append tallies.once fresh)
      (talliesEntry_add tallies deeper fresh run)
  | skip found gone =>
    have entry : TalliesEntry seen node inner _ :=
      talliesEntry_skip tallies found.mem found.key gone
    rw [found.split] at tallies ⊢
    exact tallies.replace found.key entry
  | drop found stays none =>
    have entry : TalliesEntry seen node inner _ :=
      talliesEntry_drop tallies found.mem found.key stays none
    rw [found.split] at tallies
    exact tallies.replace found.key entry
  | update found stays some run =>
    have entry := talliesEntry_update numbered tallies deeper found.mem found.key stays some run
    rw [found.split] at tallies
    exact tallies.replace found.key entry

theorem talliesInside_mergeInto (trees : List Tree) :
    TalliesInside (Tree.mergeInto .neither trees) (trees.flatMap Tree.declarations) := by
  apply Tree.mergeInto_induction (Q := TalliesInside)
  · intro name m seen _ tallies
    rwa [List.append_nil]
  · intro f g ds es grows first second name m seen numbered tallies
    rw [← List.append_assoc]
    exact second name _ _ ((grows name m numbered).numbered numbered)
      (first name m seen numbered tallies)
  · intro node inside inner keyed _ _ deeper name m seen numbered tallies
    exact tallies_step numbered tallies deeper (step_meet .neither name inside numbered keyed)

end Merging

/-! ## What a tree declares, in no order -/

/-- What a declaration says wherever it stands: the names of the scopes around it, its key, what it
    declares and the texts of its comments. -/
structure Summary where
  path : List String
  key : Option Key
  node : Node
  comments : Finset String
  deriving DecidableEq

def Located.summary (d : Located) : Summary where
  path := d.path
  key := d.node.key?
  node := d.node.stripped
  comments := (d.node.comments.map Comment.text).toFinset

/-- The set of what a tree declares. -/
def Tree.summaries (t : Tree) : Finset Summary :=
  (t.declarations.map Located.summary).toFinset

namespace Node

variable {a b : Node} {given given' : List Node}

/-- What unites the same declarations has the same texts. -/
theorem Unites.texts_subset (ha : a.Unites given) (hb : b.Unites given') (sub : given ⊆ given') :
    (a.comments.map Comment.text).toFinset ⊆ (b.comments.map Comment.text).toFinset := by
  intro text member
  obtain ⟨c, inside, rfl⟩ := List.mem_map.1 (List.mem_toFinset.1 member)
  obtain ⟨n, stated, own⟩ := ha.comments c inside
  obtain ⟨d, there, same⟩ := (hb.covers n (sub stated)).comments c own
  exact List.mem_toFinset.2 (List.mem_map.2 ⟨d, there, same⟩)

/-- A scope that unites declarations has a superclass if one of them gives it. -/
theorem Unites.superclass {s s' : Scope} {c : String} (ha : a.Unites given) (hb : b.Unites given')
    (sub : given ⊆ given') (hs : a.scope? = some s) (hs' : b.scope? = some s')
    (stated : s.kind = .classDef (some c)) : s'.kind = .classDef (some c) := by
  obtain ⟨n, member, decl⟩ := ha.decl
  obtain ⟨t, ht, -, keeps⟩ := (hb.covers n (sub member)).scope s ((scope?_congr decl).trans hs)
  obtain rfl : s' = t := Option.some.inj (hs'.symm.trans ht)
  exact keeps c stated

/-- What unites the same declarations declares the same. -/
theorem Unites.stripped_eq (ha : a.Unites given) (hb : b.Unites given') (key : a.key? = b.key?)
    (sub : given ⊆ given') (sup : given' ⊆ given) : a.stripped = b.stripped := by
  obtain ⟨n, member, decl⟩ := ha.decl
  have covers := hb.covers n (sub member)
  cases hs : a.scope? with
  | none => rw [covers.leaf ((scope?_congr decl).trans hs), stripped_congr decl]
  | some s =>
    obtain ⟨s', hs', flavour, -⟩ := covers.scope s ((scope?_congr decl).trans hs)
    have forth := fun c => Unites.superclass (c := c) ha hb sub hs hs'
    have back := fun c => Unites.superclass (c := c) hb ha sup hs' hs
    have name : s.name = s'.name := by
      have named := key?_eq_scope.2 ⟨s, hs, rfl⟩
      rw [key, key?_eq_scope.2 ⟨s', hs', rfl⟩] at named
      simpa using named.symm
    have kind : s.kind = s'.kind := by
      cases hk : s.kind with
      | classDef c =>
        cases hk' : s'.kind with
        | classDef c' =>
          cases c with
          | some c => rw [← hk', forth c hk]
          | none =>
            cases c' with
            | none => rfl
            | some c' => rw [back c' hk'] at hk; cases hk
        | _ => simp [hk, hk', ScopeKind.sameFlavour] at flavour
      | _ => cases hk' : s'.kind <;> simp [hk, hk', ScopeKind.sameFlavour] at flavour ⊢
    have same : s = s' := by
      obtain ⟨kind₁, name₁⟩ := s
      obtain ⟨kind₂, name₂⟩ := s'
      obtain rfl : kind₁ = kind₂ := kind
      obtain rfl : name₁ = name₂ := name
      rfl
    apply stripped_congr
    rw [scope?_eq_some.1 hs, scope?_eq_some.1 hs', same]

theorem Unites.summary_eq {path : List String} (ha : a.Unites given) (hb : b.Unites given')
    (key : a.key? = b.key?) (sub : given ⊆ given') (sup : given' ⊆ given) :
    ({ path, node := a } : Located).summary = ({ path, node := b } : Located).summary := by
  have texts : (a.comments.map Comment.text).toFinset = (b.comments.map Comment.text).toFinset :=
    (ha.texts_subset hb sub).antisymm (hb.texts_subset ha sup)
  simp only [Located.summary, key, ha.stripped_eq hb key sub sup, texts]

end Node

theorem Located.summary_inside (s : String) (d : Located) :
    (d.inside s).summary = { d.summary with path := s :: d.summary.path } := rfl

/-- What entries declare is declared by those that stay. -/
theorem Entry.mem_declarationsAll_outlines {es : List Entry} {d : Located}
    (proper : ∀ e ∈ es, e.dropped = false →
      e.node.isBlank = false ∧ e.node.sectionMarker? = none) :
    d ∈ Outline.declarationsAll .pub (outlines es) ↔
      ∃ e ∈ es, e.dropped = false ∧ d ∈ e.declares := by
  have kept : outlines (es.filter fun e => !e.dropped) = outlines es := by
    clear proper
    induction es with
    | nil => rfl
    | cons e rest ih => cases hd : e.dropped <;> simp [outlines, hd, ih]
  rw [← kept, declarationsAll_outlines]
  · simp [and_assoc]
  · intro e member
    simpa using (List.mem_filter.1 member).2
  · intro e member
    obtain ⟨inside, stays⟩ := List.mem_filter.1 member
    exact proper e inside (by simpa using stays)

/-- Entries that the same declarations come to declare the same. -/
theorem Tallies.summary_mem {ds ds' : List Located} {es es' : List Entry} (h : Tallies ds es)
    (h' : Tallies ds' es') (proper : Located.Proper ds) (same : ∀ d, d ∈ ds ↔ d ∈ ds') :
    ∀ d ∈ Outline.declarationsAll .pub (Entry.outlines es),
      ∃ d' ∈ Outline.declarationsAll .pub (Entry.outlines es'), d'.summary = d.summary := by
  induction h generalizing ds' es' with
  | @mk ds es once known kept dropped outside inside ih =>
    obtain ⟨once', known', kept', dropped', outside', inside'⟩ := h'
    have proper' : Located.Proper ds' := fun d member => proper d ((same d).2 member)
    have declared : ∀ n, n ∈ declaredAt [] ds ↔ n ∈ declaredAt [] ds' := by
      intro n
      rw [Located.mem_declaredAt, Located.mem_declaredAt, same]
    intro d member
    rw [Entry.mem_declarationsAll_outlines fun e known stays =>
      proper.of_unites (kept e known stays)] at member
    simp only [Entry.mem_declarationsAll_outlines fun e known stays =>
      proper'.of_unites (kept' e known stays)]
    obtain ⟨e, here, stays, declares⟩ := member
    have united := kept e here stays
    -- The other entries have one with the same key, and it stays, too.
    obtain ⟨e', there, key⟩ : ∃ e' ∈ es', e'.node.key? = e.node.key? := by
      obtain ⟨n, given, -⟩ := united.decl
      obtain ⟨stated, own⟩ := List.mem_filter.1 given
      obtain ⟨e', there, key⟩ := known' n ((declared n).1 stated)
      exact ⟨e', there, key.trans (by simpa using own)⟩
    have stays' : e'.dropped = false := by
      rw [Bool.eq_false_iff]
      intro gone
      obtain ⟨a, ha, b, hb, keyA, keyB, disagree⟩ := dropped' e' there gone
      have covers : ∀ n, n ∈ declaredAt [] ds' → n.key? = e'.node.key? → e.node.Covers n := by
        intro n stated own
        apply united.covers
        exact List.mem_filter.2 ⟨(declared n).2 stated, by simpa using own.trans key⟩
      exact disagree ((covers a ha keyA).agrees (covers b hb keyB) (keyA.trans keyB.symm))
    have united' := kept' e' there stays'
    have given : ∀ n, n ∈ (declaredAt [] ds).filter (fun n => n.key? = e.node.key?) ↔
        n ∈ (declaredAt [] ds').filter (fun n => n.key? = e'.node.key?) := by
      intro n
      rw [List.mem_filter, List.mem_filter, declared n, key]
    have summary : ({ path := [], node := e'.node } : Located).summary =
        ({ path := [], node := e.node } : Located).summary :=
      united'.summary_eq united key (fun n => (given n).2) fun n => (given n).1
    rcases Node.mem_declares.1 declares with rfl | ⟨s, named, inner, member, rfl⟩
    · exact ⟨_, ⟨e', there, stays', Node.mem_declares.2 (.inl rfl)⟩, summary⟩
    · have named' : e'.node.key? = some (.scope s) := key.trans named
      obtain ⟨inner', member', alike⟩ := ih e here stays s named
        (inside' e' there stays' s named') (proper.below s)
        (fun d => by rw [Located.mem_below, Located.mem_below, same]) inner member
      refine ⟨inner'.inside s,
        ⟨e', there, stays', Node.mem_declares.2 (.inr ⟨s, named', inner', member', rfl⟩)⟩, ?_⟩
      rw [Located.summary_inside, Located.summary_inside, alike]

/-! ## Merging in another order -/

namespace Tree

/-- What is declared in the tree of a merge is what its entries declare. -/
theorem declarations_merge (keep : Keep) (trees : List Tree) :
    (merge keep trees).1.declarations =
      Outline.declarationsAll .pub (Entry.outlines (mergeOnto keep {} trees).entries) := by
  rw [declarations, outline_merge]
  rfl

theorem tallies_merge (trees : List Tree) :
    Tallies (trees.flatMap declarations) (mergeOnto .neither {} trees).entries :=
  Merging.talliesInside_mergeInto trees "" {} [] Merging.numbered_empty .nil

/-- If nothing that disagrees stays, then what trees leave is left by the same trees in any order and
    any number. -/
theorem summaries_merge_subset {ts us : List Tree} (same : ∀ t, t ∈ ts ↔ t ∈ us) :
    (merge .neither ts).1.summaries ⊆ (merge .neither us).1.summaries := by
  have declared : ∀ d, d ∈ ts.flatMap declarations ↔ d ∈ us.flatMap declarations := by
    simp [same]
  intro summary member
  obtain ⟨d, left, rfl⟩ := List.mem_map.1 (List.mem_toFinset.1 member)
  rw [declarations_merge] at left
  obtain ⟨d', left', alike⟩ :=
    (tallies_merge ts).summary_mem (tallies_merge us) (proper_declarations ts) declared d left
  rw [← declarations_merge] at left'
  exact List.mem_toFinset.2 (List.mem_map.2 ⟨d', left', alike⟩)

end Tree

/-- Trees can be merged in any order: whether there is a conflict is the same whatever the policy,
    and if neither of two declarations that disagree stays, then the merged trees declare the same
    at the same paths, with the same comments. -/
theorem merge_in_any_order {ts us : List Tree} (order : ts.Perm us) :
    (∀ keep, (Tree.merge keep ts).2 = [] ↔ (Tree.merge keep us).2 = []) ∧
      (Tree.merge .neither ts).1.summaries = (Tree.merge .neither us).1.summaries := by
  constructor
  · intro keep
    rw [Tree.conflicts_merge_eq_nil_iff, Tree.conflicts_merge_eq_nil_iff]
    have declared := order.flatMap_right Tree.declarations
    exact ⟨.mono declared.symm.subset, .mono declared.subset⟩
  · apply Finset.Subset.antisymm
    · exact Tree.summaries_merge_subset fun _ => order.mem_iff
    · exact Tree.summaries_merge_subset fun _ => order.symm.mem_iff

theorem merge_in_any_order_disputedClass :
    let ts := reopenedClass ++ [disputedClass]
    let us := disputedClass :: reopenedClass
    ts.Perm us ∧ (Tree.merge .neither ts).2.length = 1 ∧
      (Tree.merge .neither ts).1.declarations.length = 3 ∧
        (∀ keep, (Tree.merge keep ts).2 = [] ↔ (Tree.merge keep us).2 = []) ∧
          (Tree.merge .neither ts).1.summaries = (Tree.merge .neither us).1.summaries := by
  have order := List.perm_append_singleton disputedClass reopenedClass
  exact ⟨order, by decide +kernel, by decide +kernel, merge_in_any_order order⟩

end InterfaceFile
