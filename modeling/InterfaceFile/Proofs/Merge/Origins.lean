import InterfaceFile.Proofs.Merge.Reported

/-!
# Where merged declarations come from

Every entry of a merge comes from a declaration that was merged, and inside a scope from one that stood
in a scope of the same name. Whether it stood in a scope of the same kind depends on the policy: the
body of a scope of another kind is left out, or it is merged on top of what is there. The invariant
says this of all policies at once: `Scope.joins` decides which bodies go into the entry of a scope.
-/

namespace InterfaceFile

open Standing (below outermost)

/-- Does the body of `t` go into the entry of `s`? It does if the two have one name and one kind. If
    the later of two declarations wins, then the kind does not matter. -/
def Scope.joins (keep : Keep) (s t : Scope) : Bool :=
  decide (s.name = t.name) && (decide (keep = .right) || s.kind.sameFlavour t.kind)

/-- `n` is what is left of `given`: it declares the same and was read in the same place. The header of
    a scope stays in the place of the first one. -/
structure Node.StemsFrom (n given : Node) : Prop where
  decl : n.decl = given.decl
  loc : n.scope? = none → n.loc = given.loc

/-- Two declarations at a position do not say the same. -/
def Standing.Disputed (ds : List Standing) (path : List String) (key : Option Key) : Prop :=
  ∃ a ∈ ds, ∃ b ∈ ds, (a.path = path ∧ a.node.key? = key) ∧ (b.path = path ∧ b.node.key? = key) ∧
    a.node.stripped ≠ b.node.stripped

open Standing (Disputed)

/-! ## Bodies that are merged -/

namespace Scope

variable {keep : Keep} {s t : Scope}

theorem name_eq_of_joins (joined : s.joins keep t = true) : s.name = t.name := by
  rw [joins, Bool.and_eq_true] at joined
  exact of_decide_eq_true joined.1

@[simp]
theorem joins_self (keep : Keep) (s : Scope) : s.joins keep s = true := by
  simp [joins, Node.sameFlavour_refl]

theorem joins_of_ne (other : s.name ≠ t.name) : s.joins keep t = false := by
  simp [joins, other]

theorem sameFlavour_of_joins (given : keep ≠ .right) (joined : s.joins keep t = true) :
    s.kind.sameFlavour t.kind = true := by
  rw [joins, Bool.and_eq_true] at joined
  simpa [given] using joined.2

/-- Scopes with one name and of one kind take the same bodies. -/
theorem joins_congr {s' : Scope} (name : s'.name = s.name)
    (kind : keep = .right ∨ s'.kind.sameFlavour s.kind = true) : s'.joins keep = s.joins keep := by
  funext t
  rw [joins, joins, name]
  congr 1
  rcases kind with rfl | flavour
  · simp
  · congr 1
    rw [Bool.eq_iff_iff]
    exact ⟨Node.sameFlavour_trans (Node.sameFlavour_symm flavour), Node.sameFlavour_trans flavour⟩

end Scope

namespace Standing

variable {ds es : List Standing} {path : List String} {key : Option Key} {keep : Keep} {s : Scope}

theorem Disputed.mono (sub : ds ⊆ es) (h : Disputed ds path key) : Disputed es path key := by
  obtain ⟨a, ha, b, hb, rest⟩ := h
  exact ⟨a, sub ha, b, sub hb, rest⟩

theorem disputed_outermost {a b : Node} (ha : a ∈ outermost ds) (hb : b ∈ outermost ds)
    (same : a.key? = b.key?) (other : a.stripped ≠ b.stripped) : Disputed ds [] b.key? :=
  ⟨_, mem_outermost.1 ha, _, mem_outermost.1 hb, ⟨rfl, same⟩, ⟨rfl, rfl⟩, other⟩

/-- What is disputed inside a scope is disputed when it is seen from outside. -/
theorem Disputed.of_below (h : Disputed (below (s.joins keep) ds) path key) :
    Disputed ds (s.name :: path) key := by
  obtain ⟨a, ha, b, hb, ⟨pathA, keyA⟩, ⟨pathB, keyB⟩, other⟩ := h
  obtain ⟨t, joinedA, givenA⟩ := mem_below.1 ha
  obtain ⟨u, joinedB, givenB⟩ := mem_below.1 hb
  refine ⟨_, givenA, _, givenB, ⟨?_, keyA⟩, ⟨?_, keyB⟩, other⟩
  · rw [path_inside, pathA, Scope.name_eq_of_joins joinedA]
  · rw [path_inside, pathB, Scope.name_eq_of_joins joinedB]

theorem below_joins_stands {node : Node} {inner : List Standing} {t : Scope}
    (opens : node.scope? = some t) :
    below (s.joins keep) (node.stands inner) = if s.joins keep t then inner else [] := by
  rw [Node.below_stands, opens]

/-- A declaration with another name has nothing inside the scope. -/
theorem below_joins_stands_of_ne {node : Node} {inner : List Standing}
    (other : node.key? ≠ some (.scope s.name)) : below (s.joins keep) (node.stands inner) = [] := by
  rw [Node.below_stands]
  cases hs : node.scope? with
  | none => rfl
  | some t =>
    have different : s.name ≠ t.name := fun same => other (Node.key?_eq_scope.2 ⟨t, hs, same.symm⟩)
    simp [Scope.joins_of_ne different]

end Standing

namespace Node

variable {keep : Keep} {old new merged given : Node}

theorem StemsFrom.refl (n : Node) : n.StemsFrom n :=
  ⟨rfl, fun _ => rfl⟩

theorem StemsFrom.key (h : merged.StemsFrom given) : merged.key? = given.key? :=
  key?_congr h.decl

theorem StemsFrom.stripped (h : merged.StemsFrom given) : merged.stripped = given.stripped :=
  stripped_congr h.decl

/-- What is left of two declarations comes from what the earlier one came from, or from the later
    one. -/
theorem stemsFrom_unify (same : old.key? = new.key?) (h : old.StemsFrom given)
    (stays : (old.unify keep new).node = some merged) :
    merged.StemsFrom given ∨ merged.StemsFrom new := by
  cases stays_unify same stays with
  | earlier => exact .inl h
  | later => exact .inr (.refl new)
  | united => exact .inl ⟨h.decl, h.loc⟩
  | unitedLater hn => exact .inr ⟨rfl, fun leaf => absurd (hn.symm.trans leaf) (by simp)⟩

/-- Two scopes of one kind become one scope that is entered. Of two kinds the policy keeps one scope,
    and it is entered if it is the later one. -/
theorem unify_scopes {s t : Scope} (same : old.key? = new.key?)
    (stays : (old.unify keep new).node = some merged) (ho : old.scope? = some s)
    (hn : new.scope? = some t) :
    (s.kind.sameFlavour t.kind = true ∧ (old.unify keep new).descend = true) ∨
      (s.kind.sameFlavour t.kind = false ∧
        ((keep = .left ∧ merged.decl = old.decl ∧ (old.unify keep new).descend = false) ∨
          (keep = .right ∧ merged.decl = new.decl ∧ (old.unify keep new).descend = true))) := by
  have outcome := unifies_unify keep same
  generalize old.unify keep new = union at outcome stays ⊢
  cases outcome with
  | equal leaf | different leaf =>
    rw [leaf] at hn
    cases hn
  | known ho' hn' flavour =>
    obtain rfl := Option.some.inj (ho.symm.trans ho')
    obtain rfl := Option.some.inj (hn.symm.trans hn')
    exact .inl ⟨flavour, rfl⟩
  | filled ho' hn' bare given =>
    obtain rfl := Option.some.inj (ho.symm.trans ho')
    obtain rfl := Option.some.inj (hn.symm.trans hn')
    exact .inl ⟨by rw [bare, given]; rfl, rfl⟩
  | kinds ho' hn' apart =>
    obtain rfl := Option.some.inj (ho.symm.trans ho')
    obtain rfl := Option.some.inj (hn.symm.trans hn')
    refine .inr ⟨apart, ?_⟩
    cases keep with
    | neither => cases stays
    | left =>
      obtain rfl := Option.some.inj stays
      exact .inl ⟨rfl, rfl, rfl⟩
    | right =>
      obtain rfl := Option.some.inj stays
      exact .inr ⟨rfl, rfl, rfl⟩
  | superclasses ho' hn' ha hb =>
    obtain rfl := Option.some.inj (ho.symm.trans ho')
    obtain rfl := Option.some.inj (hn.symm.trans hn')
    refine .inl ⟨by rw [ha, hb]; rfl, ?_⟩
    cases keep with
    | neither => cases stays
    | left | right => rfl

/-- What is left of two scopes takes the bodies that the earlier one took, and a body is entered
    exactly if it is one of them. -/
theorem joins_unify {s t s' : Scope} (same : old.key? = new.key?)
    (stays : (old.unify keep new).node = some merged) (ho : old.scope? = some s)
    (hn : new.scope? = some t) (hm : merged.scope? = some s') :
    s'.joins keep = s.joins keep ∧ (old.unify keep new).descend = s.joins keep t := by
  have names : s.name = t.name := by
    rw [key?_eq_scope.2 ⟨s, ho, rfl⟩, key?_eq_scope.2 ⟨t, hn, rfl⟩] at same
    simpa using same
  have earlier : merged.decl = old.decl → s' = s := fun decl =>
    Option.some.inj (hm.symm.trans ((scope?_congr decl).trans ho))
  have later : merged.decl = new.decl → s' = t := fun decl =>
    Option.some.inj (hm.symm.trans ((scope?_congr decl).trans hn))
  rcases unify_scopes same stays ho hn with
    ⟨flavour, enters⟩ | ⟨apart, ⟨rfl, decl, enters⟩ | ⟨rfl, decl, enters⟩⟩
  · refine ⟨?_, by simp [enters, Scope.joins, names, flavour]⟩
    rcases (stays_unify same stays).decl with decl | decl
    · rw [earlier decl]
    · rw [later decl]
      exact Scope.joins_congr names.symm (.inr (sameFlavour_symm flavour))
  · exact ⟨by rw [earlier decl], by simp [enters, Scope.joins, apart]⟩
  · refine ⟨?_, by simp [enters, Scope.joins, names]⟩
    rw [later decl]
    exact Scope.joins_congr names.symm (.inl rfl)

/-- Declarations without a body are in conflict, or go, only if they do not say the same. -/
theorem stripped_ne_of_unify (same : old.key? = new.key?) (leaf : new.scope? = none)
    (apart : (old.unify keep new).conflict ≠ none ∨ (old.unify keep new).node = none) :
    old.stripped ≠ new.stripped := by
  have outcome := unifies_unify keep same
  generalize old.unify keep new = union at outcome apart
  cases outcome with
  | different _ other => exact other
  | equal => simp at apart
  | known _ hn | filled _ hn | kinds _ hn | superclasses _ hn =>
    rw [leaf] at hn
    cases hn

end Node

/-! ## Entries and what they hold -/

/-- The entries are what a merge makes of declarations. -/
inductive Holds (keep : Keep) : List Standing → List Entry → Prop
  | mk {ds : List Standing} {es : List Entry} (once : (es.map fun e => e.node.key?).Nodup)
      (known : ∀ n ∈ outermost ds, ∃ e ∈ es, e.node.key? = n.key?)
      (stems : ∀ e ∈ es, ∃ n ∈ outermost ds, e.node.StemsFrom n)
      (dropped : ∀ e ∈ es, e.dropped = true →
        keep = .neither ∧ (e.node.scope? = none → Disputed ds [] e.node.key?))
      (outside : ∀ s : Scope, (∀ e ∈ es, e.node.key? ≠ some (.scope s.name)) →
        below (s.joins keep) ds = [])
      (inside : ∀ e ∈ es, e.dropped = false → ∀ s, e.node.scope? = some s →
        Holds keep (below (s.joins keep) ds) e.body) :
      Holds keep ds es

/-- What the entry with the key of a declaration has to be after it. -/
structure HoldsEntry (keep : Keep) (ds : List Standing) (node : Node) (x : Entry) : Prop where
  key : x.node.key? = node.key?
  stems : ∃ n ∈ outermost ds, x.node.StemsFrom n
  dropped : x.dropped = true →
    keep = .neither ∧ (x.node.scope? = none → Disputed ds [] x.node.key?)
  inside : x.dropped = false → ∀ s, x.node.scope? = some s →
    Holds keep (below (s.joins keep) ds) x.body

namespace Holds

variable {keep : Keep} {ds inner : List Standing} {es es' : List Entry} {node : Node} {x : Entry}

theorem nil : Holds keep [] [] :=
  .mk List.nodup_nil (by simp [outermost]) (by simp) (by simp) (fun _ _ => rfl) (by simp)

theorem distinct (h : Holds keep ds es) : (es.map fun e => e.node.key?).Nodup := by
  obtain ⟨once, -⟩ := h
  exact once

/-- One more declaration changes the entry with its key and no other. -/
theorem put (h : Holds keep ds es) (puts : Entry.Puts es x es')
    (entry : HoldsEntry keep (ds ++ node.stands inner) node x) :
    Holds keep (ds ++ node.stands inner) es' := by
  obtain ⟨-, known, stems, dropped, outside, inside⟩ := h
  have sub : ds ⊆ ds ++ node.stands inner := List.subset_append_left _ _
  have outer : outermost (ds ++ node.stands inner) = outermost ds ++ [node] := by
    rw [Standing.outermost_append, Node.outermost_stands]
  have elsewhere : ∀ s : Scope, node.key? ≠ some (.scope s.name) →
      Standing.below (s.joins keep) (ds ++ node.stands inner) = Standing.below (s.joins keep) ds := by
    intro s other
    rw [Standing.below_append, Standing.below_joins_stands_of_ne other, List.append_nil]
  refine .mk puts.once ?_ ?_ ?_ ?_ ?_
  · rw [outer]
    exact puts.known entry.key known
  · intro e member
    rcases (puts.mem e).1 member with rfl | ⟨old, -⟩
    · exact entry.stems
    · obtain ⟨n, given, stem⟩ := stems e old
      rw [outer]
      exact ⟨n, List.mem_append_left _ given, stem⟩
  · intro e member gone
    rcases (puts.mem e).1 member with rfl | ⟨old, -⟩
    · exact entry.dropped gone
    · exact (dropped e old gone).imp_right fun disputed leaf => (disputed leaf).mono sub
  · intro s none
    obtain ⟨other, before⟩ := puts.missing none
    rw [elsewhere s (entry.key ▸ other)]
    exact outside s before
  · intro e member stays s opens
    rcases (puts.mem e).1 member with rfl | ⟨old, other⟩
    · exact entry.inside stays s opens
    · have named := Node.key?_eq_scope.2 ⟨s, opens, rfl⟩
      rw [elsewhere s fun eq => other (named.trans (eq.symm.trans entry.key.symm))]
      exact inside e old stays s opens

end Holds

/-! ## Every step -/

namespace Merging

/-- A run makes entries of what it declares, and what it reports of declarations without a body is
    that they do not say the same. -/
structure Originates (keep : Keep) (run : String → Merging → Merging)
    (reports : String → Merging → List Report) (ds : List Standing) : Prop where
  holds : ∀ name (m : Merging) seen, m.Numbered → Holds keep seen m.entries →
    Holds keep (seen ++ ds) (run name m).entries
  disputed : ∀ name (m : Merging) seen, m.Numbered → Holds keep seen m.entries →
    ∀ r ∈ reports name m, r.standing.node.scope? = none →
      Disputed (seen ++ ds) r.standing.path r.standing.node.key?

variable {keep : Keep} {name : String} {node : Node} {inside : String → Merging → Merging}
  {reports : String → Merging → List Report} {m : Merging} {seen inner : List Standing} {e : Entry}

/-- Before a scope has an entry nothing stands inside it. -/
theorem below_of_fresh {s : Scope} (holds : Holds keep seen m.entries)
    (fresh : ∀ e ∈ m.entries, e.node.key? ≠ node.key?) (opens : node.scope? = some s) :
    below (s.joins keep) (seen ++ node.stands inner) = [] ++ inner := by
  obtain ⟨-, -, -, -, outside, -⟩ := holds
  have named := Node.key?_eq_scope.2 ⟨s, opens, rfl⟩
  rw [Standing.below_append, outside s fun e member => named ▸ fresh e member,
    Standing.below_joins_stands opens, Scope.joins_self, if_pos rfl]

/-- What stands inside an entry after a declaration. -/
theorem below_of_unify {s s' t : Scope} {merged : Node} (same : e.node.key? = node.key?)
    (some : (e.node.unify keep node).node = some merged) (ho : e.node.scope? = Option.some s)
    (hn : node.scope? = Option.some t) (hm : merged.scope? = Option.some s') :
    below (s'.joins keep) (seen ++ node.stands inner) = below (s.joins keep) seen ++
      if (e.node.unify keep node).descend then inner else [] := by
  obtain ⟨joins, descend⟩ := Node.joins_unify same some ho hn hm
  rw [joins, descend, Standing.below_append, Standing.below_joins_stands hn]

/-- What an entry comes from, and a later declaration that does not say the same, are disputed. -/
theorem disputed_of_unify (holds : Holds keep seen m.entries) (member : e ∈ m.entries)
    (same : e.node.key? = node.key?) (leaf : node.scope? = none)
    (apart : (e.node.unify keep node).conflict ≠ none ∨ (e.node.unify keep node).node = none) :
    Disputed (seen ++ node.stands inner) [] node.key? := by
  obtain ⟨-, -, stems, -, -, -⟩ := holds
  obtain ⟨n, given, stem⟩ := stems e member
  apply Standing.disputed_outermost (a := n)
  · rw [Standing.outermost_append]
    exact List.mem_append_left _ given
  · simp
  · exact stem.key.symm.trans same
  · rw [← stem.stripped]
    exact Node.stripped_ne_of_unify same leaf apart

theorem holdsEntry_add {more : Merging} (holds : Holds keep seen m.entries)
    (deeper : Originates keep inside reports inner)
    (fresh : ∀ e ∈ m.entries, e.node.key? ≠ node.key?)
    (run : more = enter node.isScope inside (node.qualifiedIn name)
      { next := m.next + 1, conflicts := m.conflicts }) :
    HoldsEntry keep (seen ++ node.stands inner) node (.mk m.next node false more.entries) where
  key := rfl
  stems := ⟨node, by simp, .refl node⟩
  dropped gone := absurd gone Bool.false_ne_true
  inside _ s opens := by
    have scope : node.isScope = true := Option.isSome_iff_exists.2 ⟨s, opens⟩
    show Holds keep (below (s.joins keep) (seen ++ node.stands inner)) more.entries
    rw [below_of_fresh holds fresh opens, run, enter, scope]
    exact deeper.holds _ _ [] (numbered_start _ _) .nil

/-- What is dropped goes on to hold what comes later, which is nothing. -/
theorem holdsEntry_skip (holds : Holds keep seen m.entries) (member : e ∈ m.entries)
    (same : e.node.key? = node.key?) (gone : e.dropped = true) :
    HoldsEntry keep (seen ++ node.stands inner) node e := by
  obtain ⟨-, -, stems, dropped, -, -⟩ := holds
  obtain ⟨n, given, stem⟩ := stems e member
  constructor
  · exact same
  · rw [Standing.outermost_append]
    exact ⟨n, List.mem_append_left _ given, stem⟩
  · exact fun _ => (dropped e member gone).imp_right fun disputed leaf =>
      (disputed leaf).mono (List.subset_append_left _ _)
  · intro stays
    rw [gone] at stays
    cases stays

theorem holdsEntry_drop (holds : Holds keep seen m.entries) (member : e ∈ m.entries)
    (same : e.node.key? = node.key?) (none : (e.node.unify keep node).node = none) :
    HoldsEntry keep (seen ++ node.stands inner) node (.mk e.id e.node true e.body) := by
  have disputed (leaf : node.scope? = .none) : Disputed (seen ++ node.stands inner) [] node.key? :=
    disputed_of_unify holds member same leaf (.inr none)
  obtain ⟨-, -, stems, -, -, -⟩ := holds
  obtain ⟨n, given, stem⟩ := stems e member
  constructor
  · exact same
  · rw [Standing.outermost_append]
    exact ⟨n, List.mem_append_left _ given, stem⟩
  · refine fun _ => ⟨Node.eq_neither_of_unify same none, fun leaf => ?_⟩
    show Disputed _ [] e.node.key?
    rw [same]
    exact disputed (Node.scope?_eq_none_of_key same.symm leaf)
  · exact fun stays => absurd stays.symm Bool.false_ne_true

theorem holdsEntry_update {merged : Node} {more : Merging} (numbered : m.Numbered)
    (holds : Holds keep seen m.entries) (deeper : Originates keep inside reports inner)
    (member : e ∈ m.entries) (same : e.node.key? = node.key?) (stays : e.dropped = false)
    (some : (e.node.unify keep node).node = some merged)
    (run : more = enter (e.node.unify keep node).descend inside (merged.qualifiedIn name)
      { entries := e.body, next := m.next,
        conflicts := (m.report name e.node node (e.node.unify keep node)).conflicts }) :
    HoldsEntry keep (seen ++ node.stands inner) node (.mk e.id merged false more.entries) := by
  obtain ⟨-, -, stems, -, -, within⟩ := holds
  obtain ⟨n, given, stem⟩ := stems e member
  constructor
  · exact (Node.key?_unify same some).trans same
  · rcases Node.stemsFrom_unify same stem some with earlier | later
    · rw [Standing.outermost_append]
      exact ⟨n, List.mem_append_left _ given, earlier⟩
    · exact ⟨node, by simp, later⟩
  · exact fun gone => absurd gone Bool.false_ne_true
  · intro _ s' hm
    have scope := (Node.isScope_congr (Node.key?_unify same some)).symm.trans
      (Option.isSome_iff_exists.2 ⟨s', hm⟩)
    obtain ⟨s, ho⟩ := Option.isSome_iff_exists.1 scope
    obtain ⟨t, hn⟩ := Option.isSome_iff_exists.1 ((Node.isScope_congr same).symm.trans scope)
    show Holds keep (below (s'.joins keep) (seen ++ node.stands inner)) more.entries
    rw [below_of_unify same some ho hn hm, run, enter]
    have before := within e member stays s ho
    cases (e.node.unify keep node).descend with
    | true => exact deeper.holds _ _ _ (numbered.inside _ member) before
    | false =>
      rw [if_neg Bool.false_ne_true, List.append_nil]
      exact before

/-- What is reported inside an entry is disputed there. -/
theorem disputed_inside {s t : Scope} {n : Merging} {r : Report}
    (h : Originates keep inside reports inner) (hn : node.scope? = some t)
    (joined : s.joins keep t = true) (numbered : n.Numbered)
    (holds : Holds keep (below (s.joins keep) seen) n.entries) (reported : r ∈ reports name n)
    (leaf : r.standing.node.scope? = none) :
    Disputed (seen ++ node.stands inner) (t.name :: r.standing.path) r.standing.node.key? := by
  have disputed := h.disputed name n _ numbered holds r reported leaf
  have split : below (s.joins keep) (seen ++ node.stands inner) =
      below (s.joins keep) seen ++ inner := by
    rw [Standing.below_append, Standing.below_joins_stands hn, if_pos joined]
  rw [← split] at disputed
  rw [← Scope.name_eq_of_joins joined]
  exact disputed.of_below

theorem disputed_of_reported {r : Report} (keyed : node.isBlank = false)
    (h : Originates keep inside reports inner) (numbered : m.Numbered)
    (holds : Holds keep seen m.entries) (reported : r ∈ m.reports keep name node reports)
    (leaf : r.standing.node.scope? = none) :
    Disputed (seen ++ node.stands inner) r.standing.path r.standing.node.key? := by
  rcases fresh_or_finds node.key? m.entries with fresh | ⟨before, e, after, found⟩
  · rw [reports_of_fresh keyed fresh] at reported
    obtain ⟨t, hn, -, r', inner, rfl⟩ := Node.mem_reportsInside reported
    obtain ⟨-, -, -, -, outside, -⟩ := holds
    have named := Node.key?_eq_scope.2 ⟨t, hn, rfl⟩
    have start : Holds keep (below (t.joins keep) seen) [] := by
      rw [outside t fun e member => named ▸ fresh e member]
      exact .nil
    exact disputed_inside h hn (t.joins_self keep) (numbered_start _ _) start inner leaf
  · have own : ∀ r ∈ e.node.reports keep name node, r.standing.node.scope? = none →
        Disputed (seen ++ node.stands inner) r.standing.path r.standing.node.key? := by
      intro r reported leaf
      obtain ⟨standing, -, conflict⟩ := Node.mem_reports reported
      rw [standing] at leaf ⊢
      exact disputed_of_unify holds found.mem found.key leaf (.inl conflict)
    cases stays : e.dropped with
    | true => simp [reports_of_dropped keyed found stays] at reported
    | false =>
      cases some : (e.node.unify keep node).node with
      | none =>
        rw [reports_of_none keyed found stays some] at reported
        exact own r reported leaf
      | some merged =>
        rw [reports_of_some keyed found stays some] at reported
        rcases List.mem_append.1 reported with here | deeper
        · exact own r here leaf
        · obtain ⟨t, hn, descend, r', inner, rfl⟩ := Node.mem_reportsInside deeper
          have scope : node.isScope = true := Option.isSome_iff_exists.2 ⟨t, hn⟩
          have old := (Node.isScope_congr found.key).trans scope
          obtain ⟨s, ho⟩ := Option.isSome_iff_exists.1 old
          obtain ⟨s', hm⟩ := Option.isSome_iff_exists.1
            ((Node.isScope_congr (Node.key?_unify found.key some)).trans old)
          have joined := (Node.joins_unify found.key some ho hn hm).2.symm.trans descend
          obtain ⟨-, -, -, -, -, within⟩ := holds
          exact disputed_inside h hn joined (numbered.inside _ found.mem)
            (within e found.mem stays s ho) inner leaf

theorem originates_meet (keyed : node.isBlank = false) (h : Originates keep inside reports inner) :
    Originates keep (fun name m => m.meet keep name node inside)
      (fun name m => m.reports keep name node reports) (node.stands inner) := by
  constructor
  · intro name m seen numbered holds
    have step := step_meet keep name inside numbered keyed
    generalize m.meet keep name node inside = result at step ⊢
    have distinct := holds.distinct
    cases step with
    | add fresh run =>
      exact holds.put (Entry.puts_append distinct fresh) (holdsEntry_add holds h fresh run)
    | @skip before after e found gone =>
      have entry : HoldsEntry keep (seen ++ node.stands inner) node e :=
        holdsEntry_skip holds found.mem found.key gone
      rw [found.split] at holds distinct ⊢
      exact holds.put (Entry.puts_replace distinct rfl) entry
    | @drop before after e found stays none =>
      have entry : HoldsEntry keep (seen ++ node.stands inner) node (.mk e.id e.node true e.body) :=
        holdsEntry_drop holds found.mem found.key none
      rw [found.split] at holds distinct
      exact holds.put (Entry.puts_replace distinct rfl) entry
    | update found stays some run =>
      have entry := holdsEntry_update numbered holds h found.mem found.key stays some run
      rw [found.split] at holds distinct
      exact holds.put (Entry.puts_replace distinct (entry.key.trans found.key.symm)) entry
  · intro name m seen numbered holds r reported leaf
    exact disputed_of_reported keyed h numbered holds reported leaf

theorem originates_mergeInto (keep : Keep) (trees : List Tree) :
    Originates keep (Tree.mergeInto keep trees) (Tree.reportsInto keep trees)
      (trees.flatMap Tree.standings) := by
  apply Tree.reportsInto_induction (Q := Originates keep)
  · refine ⟨fun name m seen _ holds => ?_, by simp⟩
    rwa [List.append_nil]
  · intro f g rf rg ds es grows first second
    refine ⟨fun name m seen numbered holds => ?_, fun name m seen numbered holds r member leaf => ?_⟩
    · rw [← List.append_assoc]
      exact second.holds name _ _ ((grows name m numbered).numbered numbered)
        (first.holds name m seen numbered holds)
    · rcases List.mem_append.1 member with here | later
      · rw [← List.append_assoc]
        exact (first.disputed name m seen numbered holds r here leaf).mono
          (List.subset_append_left _ _)
      · rw [← List.append_assoc]
        exact second.disputed name _ _ ((grows name m numbered).numbered numbered)
          (first.holds name m seen numbered holds) r later leaf
  · intro node inside reports inner keyed _ _ h
    exact originates_meet keyed h

end Merging

/-! ## The merged tree -/

/-- The bodies of the scopes around a declaration go into scopes of a merge, one by one. -/
def Scope.JoinAll (keep : Keep) (around given : List Scope) : Prop :=
  List.Forall₂ (fun s t => s.joins keep t = true) around given

namespace Holds

variable {keep : Keep} {ds : List Standing} {es : List Entry}

/-- What entries declare comes from what was merged. -/
theorem origin (h : Holds keep ds es) (normal : Outline.Normal (Entry.outlines es)) :
    ∀ d ∈ Outline.standingsAll .pub (Entry.outlines es),
      ∃ g ∈ ds, d.node.StemsFrom g.node ∧ Scope.JoinAll keep d.around g.around := by
  induction h with
  | @mk ds es once known stems dropped outside inside ih =>
    intro d member
    obtain ⟨o, stated, declares⟩ := normal.mem_standingsAll.1 member
    obtain ⟨-, -, inner⟩ := normal.of_mem stated
    obtain ⟨⟨id, node, gone, body⟩, there, stays, rfl⟩ := Entry.mem_outlines.1 stated
    rcases Node.mem_stands.1 declares with rfl | ⟨s, opens, d', deeper, rfl⟩
    · obtain ⟨n, given, stem⟩ := stems _ there
      exact ⟨_, Standing.mem_outermost.1 given, stem, .nil⟩
    · obtain ⟨g, given, stem, joined⟩ := ih _ there stays s opens inner d' deeper
      obtain ⟨t, joins, outer⟩ := Standing.mem_below.1 given
      exact ⟨_, outer, stem, .cons joins joined⟩

/-- What was merged into the scopes of a merge is there, unless it was dropped. -/
theorem present (h : Holds keep ds es) (normal : Outline.Normal (Entry.outlines es)) :
    ∀ g ∈ ds, g.node.scope? = none → ∀ around, Outline.Opens around (Entry.outlines es) →
      Scope.JoinAll keep around g.around →
        (∃ d ∈ Outline.standingsAll .pub (Entry.outlines es),
          d.around = around ∧ d.node.key? = g.node.key?) ∨
        keep = .neither ∧ Standing.Disputed ds g.path g.node.key? := by
  induction h with
  | @mk ds es once known stems dropped outside inside ih =>
    rintro ⟨given, node⟩ member leaf around opens joined
    cases joined with
    | nil =>
      obtain ⟨e, there, key⟩ := known node (Standing.mem_outermost.2 member)
      cases gone : e.dropped with
      | true =>
        obtain ⟨neither, disputed⟩ := dropped e there gone
        refine .inr ⟨neither, ?_⟩
        have same := disputed (Node.scope?_eq_none_of_key key leaf)
        rwa [key] at same
      | false =>
        refine .inl ⟨{ around := [], node := e.node }, ?_, rfl, key⟩
        exact normal.mem_standingsAll.2
          ⟨_, Entry.mem_outlines.2 ⟨e, there, gone, rfl⟩, Node.mem_stands.2 (.inl rfl)⟩
    | @cons s t around given joins joined =>
      obtain ⟨o, stated, scope, deeper⟩ := opens
      obtain ⟨-, -, inner⟩ := normal.of_mem stated
      obtain ⟨⟨id, own, gone, body⟩, there, stays, rfl⟩ := Entry.mem_outlines.1 stated
      have below : { around := given, node } ∈ Standing.below (s.joins keep) ds :=
        Standing.mem_below.2 ⟨t, joins, member⟩
      rcases ih _ there stays s scope inner _ below leaf around deeper joined with
        ⟨d, known, rfl, key⟩ | ⟨neither, disputed⟩
      · refine .inl ⟨d.inside s, ?_, rfl, key⟩
        exact normal.mem_standingsAll.2
          ⟨_, stated, Node.mem_stands.2 (.inr ⟨s, scope, d, known, rfl⟩)⟩
      · refine .inr ⟨neither, ?_⟩
        have outer := disputed.of_below
        rwa [Scope.name_eq_of_joins joins] at outer

end Holds

namespace Tree

theorem holds_merge (keep : Keep) (trees : List Tree) :
    Holds keep (trees.flatMap standings) (mergeOnto keep {} trees).entries :=
  (Merging.originates_mergeInto keep trees).holds "" {} [] Merging.numbered_empty .nil

theorem standings_merge (keep : Keep) (trees : List Tree) :
    (merge keep trees).1.standings =
      Outline.standingsAll .pub (Entry.outlines (mergeOnto keep {} trees).entries) := by
  rw [standings, outline_merge]
  rfl

/-- What a merge leaves comes from what was merged into its scopes. -/
theorem origin_merge (keep : Keep) (trees : List Tree) :
    ∀ d ∈ (merge keep trees).1.standings, ∃ g ∈ trees.flatMap standings,
      d.node.StemsFrom g.node ∧ Scope.JoinAll keep d.around g.around := by
  have normal := normal_merge keep trees
  rw [outline_merge] at normal
  rw [standings_merge]
  exact (holds_merge keep trees).origin normal

end Tree

end InterfaceFile
