import InterfaceFile.Proofs.Merge.Entries
import InterfaceFile.Proofs.Merge.Unions

/-!
# The steps of a merge

A declaration changes a merge in one of four ways. `Step` lists these ways with all that they come
to, so that nothing below looks into `meet` again. What is inside a declaration is merged by the same
steps: `mergeBody_induction` takes a property from single steps to whole runs.
-/

namespace InterfaceFile

/-! ## One declaration -/

namespace Merging

/-- The first entry with a key, and those around it. -/
structure Finds (es : List Entry) (key : Option Key) (before : List Entry) (e : Entry)
    (after : List Entry) : Prop where
  split : es = before ++ e :: after
  first : ∀ d ∈ before, d.node.key? ≠ key
  key : e.node.key? = key

/-- Merges the statements inside a declaration, unless they are left out. -/
def enter (descend : Bool) (inside : String → Merging → Merging) (name : String) (m : Merging) :
    Merging :=
  if descend then inside name m else m

/-- How a declaration changes a merge. -/
inductive Step (keep : Keep) (enclosing : String) (node : Node)
    (inside : String → Merging → Merging) (m : Merging) : Merging → Prop
  /-- A new key gets an entry after all others. -/
  | add {inner : Merging} (fresh : ∀ e ∈ m.entries, e.node.key? ≠ node.key?)
      (run : inner = enter node.isScope inside (node.qualifiedIn enclosing)
        { next := m.next + 1, conflicts := m.conflicts }) :
      Step keep enclosing node inside m
        { inner with entries := m.entries ++ [.mk m.next node false inner.entries] }
  /-- Nothing with a dropped key is merged. -/
  | skip {before after : List Entry} {e : Entry}
      (found : Finds m.entries node.key? before e after) (dropped : e.dropped = true) :
      Step keep enclosing node inside m m
  /-- Both declarations go. -/
  | drop {before after : List Entry} {e : Entry}
      (found : Finds m.entries node.key? before e after) (stays : e.dropped = false)
      (none : (e.node.unify keep node).node = none) :
      Step keep enclosing node inside m
        { m.report enclosing e.node node (e.node.unify keep node) with
          entries := before ++ .mk e.id e.node true e.body :: after }
  /-- One declaration takes the place of the entry. -/
  | update {before after : List Entry} {e : Entry} {merged : Node} {inner : Merging}
      (found : Finds m.entries node.key? before e after) (stays : e.dropped = false)
      (some : (e.node.unify keep node).node = some merged)
      (run : inner = enter (e.node.unify keep node).descend inside (merged.qualifiedIn enclosing)
        { entries := e.body, next := m.next,
          conflicts := (m.report enclosing e.node node (e.node.unify keep node)).conflicts }) :
      Step keep enclosing node inside m
        { inner with entries := before ++ .mk e.id merged false inner.entries :: after }

variable {m : Merging} {keep : Keep} {enclosing : String} {node : Node}
  {inside : String → Merging → Merging}

theorem Finds.mem {es before after : List Entry} {key : Option Key} {e : Entry}
    (found : Finds es key before e after) : e ∈ es := by
  rw [found.split]
  simp

theorem Finds.find?_eq {before after : List Entry} {key : Key} {e : Entry}
    (found : Finds m.entries (some key) before e after) : m.find? key = some e := by
  have none : before.find? (fun e => e.node.key? = some key) = none := by
    apply List.find?_eq_none.2
    intro d inside same
    exact found.first d inside (by simpa using same)
  rw [find?, found.split, List.find?_append, none, Option.none_or]
  apply List.find?_cons_of_pos
  simpa using found.key

theorem find?_eq_none {key : Key} (fresh : ∀ e ∈ m.entries, e.node.key? ≠ some key) :
    m.find? key = none := by
  apply List.find?_eq_none.2
  intro e member same
  exact fresh e member (by simpa using same)

/-- A key is new, or an entry is the first with it. -/
theorem fresh_or_finds (key : Option Key) (es : List Entry) :
    (∀ e ∈ es, e.node.key? ≠ key) ∨ ∃ before e after, Finds es key before e after := by
  induction es with
  | nil => exact .inl (by simp)
  | cons d rest ih =>
    by_cases own : d.node.key? = key
    · exact .inr ⟨[], d, rest, rfl, by simp, own⟩
    · rcases ih with fresh | ⟨before, e, after, split, first, same⟩
      · exact .inl (List.forall_mem_cons.2 ⟨own, fresh⟩)
      · have apart : ∀ e ∈ d :: before, e.node.key? ≠ key := List.forall_mem_cons.2 ⟨own, first⟩
        exact .inr ⟨d :: before, e, after, congrArg (d :: ·) split, apart, same⟩

theorem exists_step (keep : Keep) (enclosing : String) (node : Node)
    (inside : String → Merging → Merging) (m : Merging) :
    ∃ result, Step keep enclosing node inside m result := by
  rcases fresh_or_finds node.key? m.entries with fresh | ⟨before, e, after, found⟩
  · exact ⟨_, .add fresh rfl⟩
  · cases hd : e.dropped with
    | true => exact ⟨_, .skip found hd⟩
    | false =>
      cases hu : (e.node.unify keep node).node with
      | none => exact ⟨_, .drop found hd hu⟩
      | some merged => exact ⟨_, .update found hd hu rfl⟩

theorem enter_eq (descend : Bool) (name : String) (n : Merging) :
    (if descend then inside name else id) n = enter descend inside name n := by
  cases descend <;> rfl

theorem exists_key (keyed : node.isBlank = false) : ∃ key, node.key? = some key := by
  cases hk : node.key? with
  | none => rw [Node.key?_eq_none.1 hk] at keyed; cases keyed
  | some key => exact ⟨key, rfl⟩

/-- A declaration with a new key is added, whatever numbers the entries have. -/
theorem meet_of_fresh (keyed : node.isBlank = false)
    (fresh : ∀ e ∈ m.entries, e.node.key? ≠ node.key?) :
    m.meet keep enclosing node inside =
      let inner := enter node.isScope inside (node.qualifiedIn enclosing)
        { next := m.next + 1, conflicts := m.conflicts }
      { inner with entries := m.entries ++ [.mk m.next node false inner.entries] } := by
  obtain ⟨key, hk⟩ := exists_key keyed
  simp only [meet, hk, find?_eq_none (hk ▸ fresh), add, enter_eq]

@[simp]
theorem entries_report (enclosing : String) (old new : Node) (union : Union) :
    (m.report enclosing old new union).entries = m.entries := rfl

@[simp]
theorem next_report (enclosing : String) (old new : Node) (union : Union) :
    (m.report enclosing old new union).next = m.next := rfl

/-- A step leaves no choice: it is what the merge of the declaration does. -/
theorem meet_eq_of_step {result : Merging} (numbered : m.Numbered) (keyed : node.isBlank = false)
    (step : Step keep enclosing node inside m result) :
    m.meet keep enclosing node inside = result := by
  obtain ⟨key, hk⟩ := exists_key keyed
  -- Numbers are different, so that a replacement is seen at one entry.
  have replaced : ∀ {before after : List Entry} {e d : Entry},
      Finds m.entries node.key? before e after → d.id = e.id →
        d.replaceIn m.entries = before ++ d :: after := by
    intro before after e d found same
    have distinct := numbered.nodup
    rw [found.split] at distinct ⊢
    exact Entry.replaceIn_append distinct same
  cases step with
  | add fresh run => rw [meet_of_fresh keyed fresh, run]
  | skip found dropped =>
    simp only [meet, hk, (hk ▸ found).find?_eq, dropped, if_true]
  | @drop before after e found stays none =>
    simp only [meet, hk, (hk ▸ found).find?_eq, stays, none, drop, entries_report]
    simp [replaced found (d := .mk e.id e.node true e.body) rfl]
  | @update before after e merged inner found stays some run =>
    simp only [meet, hk, (hk ▸ found).find?_eq, stays, some, update, entries_report, next_report,
      enter_eq, ← run]
    simp [replaced found (d := .mk e.id merged false inner.entries) rfl]

theorem step_meet (keep : Keep) (enclosing : String) (inside : String → Merging → Merging)
    (numbered : m.Numbered) (keyed : node.isBlank = false) :
    Step keep enclosing node inside m (m.meet keep enclosing node inside) := by
  obtain ⟨result, step⟩ := exists_step keep enclosing node inside m
  rw [meet_eq_of_step numbered keyed step]
  exact step

/-- An empty line changes nothing. -/
theorem meet_of_blank (blank : node.isBlank = true) : m.meet keep enclosing node inside = m := by
  simp only [meet, Node.key?_eq_none.2 blank]

/-! ## Numbers -/

/-- A run only adds entries. -/
def Growing (run : String → Merging → Merging) : Prop :=
  ∀ name (m : Merging), m.Numbered → m.Grows (run name m)

theorem Growing.enter (h : Growing inside) (descend : Bool) (name : String) (numbered : m.Numbered) :
    m.Grows (enter descend inside name m) := by
  cases descend with
  | true => exact h name m numbered
  | false => exact .refl m

theorem Step.grows {result : Merging} (step : Step keep enclosing node inside m result)
    (growing : Growing inside) (numbered : m.Numbered) : m.Grows result := by
  cases step with
  | @add inner fresh run =>
    have grown := growing.enter node.isScope (node.qualifiedIn enclosing)
      (numbered_start (m.next + 1) m.conflicts)
    exact .append node (run ▸ grown)
  | skip found dropped => exact .refl m
  | @drop before after e found stays none =>
    have unchanged := Grows.refl { m.report enclosing e.node node (e.node.unify keep node) with
      entries := e.body }
    exact unchanged.replace e.node true found.split
  | @update before after e merged inner found stays some run =>
    have grown := growing.enter (e.node.unify keep node).descend (merged.qualifiedIn enclosing)
      (numbered.inside (m.report enclosing e.node node (e.node.unify keep node)).conflicts found.mem)
    exact .replace merged false found.split (run ▸ grown)

end Merging

/-- A statement is merged in one step, but for an empty line. -/
theorem step_mergeStatement (keep : Keep) (name : String) (level : Visibility) (node : Node)
    (body : List Outline) {m : Merging} (numbered : m.Numbered) :
    mergeStatement keep name level (.mk node body) m = m ∨ (node.inSection level).isBlank = false ∧
      Merging.Step keep name (node.inSection level) (fun name => mergeBody keep name .pub body) m
        (mergeStatement keep name level (.mk node body) m) := by
  rw [mergeStatement]
  cases blank : (node.inSection level).isBlank with
  | true => exact .inl (Merging.meet_of_blank blank)
  | false => exact .inr ⟨rfl, Merging.step_meet keep name _ numbered blank⟩

mutual

theorem grows_mergeStatement (keep : Keep) :
    ∀ (o : Outline) (enclosing : String) (level : Visibility) (m : Merging), m.Numbered →
      m.Grows (mergeStatement keep enclosing level o m)
  | .mk node body, enclosing, level, m, numbered => by
    rcases step_mergeStatement keep enclosing level node body numbered with same | ⟨-, step⟩
    · rw [same]
      exact .refl m
    · exact step.grows (fun name n ok => grows_mergeBody keep body name .pub n ok) numbered

theorem grows_mergeBody (keep : Keep) :
    ∀ (os : List Outline) (enclosing : String) (level : Visibility) (m : Merging), m.Numbered →
      m.Grows (mergeBody keep enclosing level os m)
  | [], _, _, m, _ => by
    rw [mergeBody]
    exact .refl m
  | o :: rest, enclosing, level, m, numbered => by
    rw [mergeBody]
    split
    · exact grows_mergeBody keep rest enclosing _ m numbered
    · have first := grows_mergeStatement keep o enclosing level m numbered
      exact first.trans (grows_mergeBody keep rest enclosing level _ (first.numbered numbered))

end

/-! ## Entries by their keys -/

namespace Entry

/-- The first entry with a key. -/
def withKey (key : Key) (es : List Entry) : Option Entry :=
  es.find? fun e => e.node.key? = some key

variable {es before after : List Entry} {d e : Entry} {key : Key}

theorem withKey_of_finds (found : Merging.Finds es (some key) before e after) :
    withKey key es = some e :=
  found.find?_eq (m := { entries := es })

theorem withKey_of_fresh (fresh : ∀ e ∈ es, e.node.key? ≠ some key) : withKey key es = none :=
  Merging.find?_eq_none (m := { entries := es }) fresh

/-- An entry is not found by other keys. -/
theorem withKey_of_ne {k : Key} (other : e.node.key? ≠ some k) :
    withKey k (before ++ e :: after) = withKey k (before ++ after) := by
  rw [withKey, withKey, List.find?_append, List.find?_append, List.find?_cons_of_neg (by simpa)]

/-- An entry with a key takes the place of the first one with it. -/
theorem withKey_replace (found : Merging.Finds es (some key) before e after)
    (same : d.node.key? = some key) (k : Key) :
    withKey k (before ++ d :: after) = if k = key then some d else withKey k es := by
  split
  · next eq =>
    subst eq
    exact withKey_of_finds ⟨rfl, found.first, same⟩
  · next other =>
    have apart : ∀ x : Entry, x.node.key? = some key → x.node.key? ≠ some k :=
      fun x named eq => other (Option.some.inj (eq.symm.trans named))
    rw [found.split, withKey_of_ne (apart d same), withKey_of_ne (apart e found.key)]

theorem withKey_append (fresh : ∀ e ∈ es, e.node.key? ≠ some key)
    (named : d.node.key? = some key) (k : Key) :
    withKey k (es ++ [d]) = if k = key then some d else withKey k es := by
  split
  · next eq =>
    subst eq
    exact withKey_of_finds ⟨rfl, fresh, named⟩
  · next other =>
    have apart : d.node.key? ≠ some k :=
      fun eq => other (Option.some.inj (eq.symm.trans named))
    rw [withKey_of_ne apart, List.append_nil]

/-- The entries `es'` are `es` with `x` for the entry with its key, or with `x` after all others. -/
structure Puts (es : List Entry) (x : Entry) (es' : List Entry) : Prop where
  once : (es'.map fun e => e.node.key?).Nodup
  mem : ∀ e, e ∈ es' ↔ e = x ∨ (e ∈ es ∧ e.node.key? ≠ x.node.key?)

section Puts

variable {x : Entry} {es' : List Entry}

theorem Puts.own (puts : Puts es x es') : x ∈ es' :=
  (puts.mem x).2 (.inl rfl)

theorem Puts.of_ne (puts : Puts es x es') (member : e ∈ es)
    (other : e.node.key? ≠ x.node.key?) : e ∈ es' :=
  (puts.mem e).2 (.inr ⟨member, other⟩)

/-- If all nodes had entries, then one more node with the key of the new entry has one, too. -/
theorem Puts.known {ns : List Node} {node : Node} (puts : Puts es x es')
    (key : x.node.key? = node.key?) (known : ∀ n ∈ ns, ∃ e ∈ es, e.node.key? = n.key?) :
    ∀ n ∈ ns ++ [node], ∃ e ∈ es', e.node.key? = n.key? := by
  intro n given
  by_cases same : n.key? = node.key?
  · exact ⟨x, puts.own, key.trans same.symm⟩
  · rcases List.mem_append.1 given with old | new
    · obtain ⟨e, member, named⟩ := known n old
      refine ⟨e, puts.of_ne member ?_, named⟩
      rwa [named, key]
    · exact absurd (congrArg Node.key? (List.mem_singleton.1 new)) same

/-- A key that no entry has now is not the new one, and no entry had it before. -/
theorem Puts.missing {key : Option Key} (puts : Puts es x es')
    (none : ∀ e ∈ es', e.node.key? ≠ key) :
    x.node.key? ≠ key ∧ ∀ e ∈ es, e.node.key? ≠ key := by
  have other := none x puts.own
  refine ⟨other, fun e member eq => none e (puts.of_ne member fun same => ?_) eq⟩
  exact other (same.symm.trans eq)

end Puts

theorem puts_append {x : Entry} (once : (es.map fun e => e.node.key?).Nodup)
    (fresh : ∀ e ∈ es, e.node.key? ≠ x.node.key?) : Puts es x (es ++ [x]) := by
  constructor
  · rw [List.map_append, List.nodup_append]
    refine ⟨once, by simp, fun a old b new same => ?_⟩
    obtain ⟨e, member, rfl⟩ := List.mem_map.1 old
    exact fresh e member (same.trans (by simpa using new))
  · intro e
    rw [List.mem_append, List.mem_singleton]
    constructor
    · rintro (old | rfl)
      · exact .inr ⟨old, fresh e old⟩
      · exact .inl rfl
    · rintro (rfl | ⟨old, -⟩)
      · exact .inr rfl
      · exact .inl old

theorem puts_replace {x : Entry} (once : ((before ++ e :: after).map fun e => e.node.key?).Nodup)
    (same : x.node.key? = e.node.key?) : Puts (before ++ e :: after) x (before ++ x :: after) := by
  have keys : (before ++ x :: after).map (fun e => e.node.key?) =
      (before ++ e :: after).map fun e => e.node.key? := by
    simp [same]
  rw [List.map_append, List.map_cons, List.nodup_middle, List.nodup_cons, ← List.map_append] at once
  have apart : ∀ d ∈ before ++ after, d.node.key? ≠ x.node.key? := by
    intro d member eq
    apply once.1
    rw [← same, ← eq]
    exact List.mem_map_of_mem member
  constructor
  · rw [keys, List.map_append, List.map_cons, List.nodup_middle, List.nodup_cons, ← List.map_append]
    exact once
  · intro d
    rw [List.perm_middle.mem_iff, List.mem_cons, List.perm_middle.mem_iff, List.mem_cons]
    constructor
    · rintro (own | other)
      · exact .inl own
      · exact .inr ⟨.inr other, apart d other⟩
    · rintro (own | ⟨rfl | other, different⟩)
      · exact .inl own
      · exact absurd same.symm different
      · exact .inr other

end Entry

/-! ## Whole runs -/

/-- An empty line is passed over. -/
theorem mergeStatement_of_isBlank (keep : Keep) (enclosing : String) (level : Visibility)
    {o : Outline} (blank : o.node.isBlank = true) (m : Merging) :
    mergeStatement keep enclosing level o m = m := by
  cases o with
  | mk node body =>
    rw [mergeStatement]
    exact Merging.meet_of_blank ((node.isBlank_inSection level).trans blank)

section Induction

variable {keep : Keep} {Q : (String → Merging → Merging) → List Located → Prop}

/-- A property of runs, and of what they declare, holds of every body if it holds of the run that
    does nothing, of two runs one after the other, and of one declaration with a run inside it. -/
theorem mergeBody_induction (nil : Q (fun _ m => m) [])
    (append : ∀ {f g ds es}, Merging.Growing f → Q f ds → Q g es →
      Q (fun name m => g name (f name m)) (ds ++ es))
    (meet : ∀ {node : Node} {inside inner}, node.isBlank = false → node.sectionMarker? = none →
      Merging.Growing inside → Q inside inner →
        Q (fun name m => m.meet keep name node inside) (node.declares inner)) :
    ∀ (os : List Outline) (level : Visibility),
      Q (fun name => mergeBody keep name level os) (Outline.declarationsAll level os)
  | [], _ => by
    simpa only [mergeBody, Outline.declarationsAll] using nil
  | .mk node body :: rest, level => by
    have later := fun level => mergeBody_induction nil append meet rest level
    have inner := mergeBody_induction nil append meet body .pub
    cases marker : node.sectionMarker? with
    | some next =>
      simpa only [mergeBody, Outline.declarationsAll, Outline.node, marker] using later next
    | none =>
      have first : Q (fun name => mergeStatement keep name level (.mk node body))
          ((Outline.mk node body).declarations level) := by
        cases blank : node.isBlank with
        | true =>
          have empty : (Outline.mk node body).node.isBlank = true := blank
          have idle : (fun name => mergeStatement keep name level (.mk node body)) = fun _ m => m :=
            funext fun name => funext fun m => mergeStatement_of_isBlank keep name level empty m
          simpa only [idle, Outline.declarations, blank, if_true] using nil
        | false =>
          simp only [mergeStatement, Outline.declarations, blank, Bool.false_eq_true, if_false]
          apply meet
          · rw [Node.isBlank_inSection, blank]
          · rw [Node.sectionMarker?_inSection, marker]
          · exact fun name m ok => grows_mergeBody keep body name .pub m ok
          · exact inner
      have grows : Merging.Growing fun name => mergeStatement keep name level (.mk node body) :=
        fun name m ok => grows_mergeStatement keep _ name level m ok
      simpa only [mergeBody, Outline.declarationsAll, Outline.node, marker] using
        append grows first (later level)

/-- The merge of whole trees into the scope with a name. -/
def Tree.mergeInto (keep : Keep) (trees : List Tree) (name : String) (m : Merging) : Merging :=
  trees.foldl (fun m t => mergeBody keep name .pub (t.outline root).body m) m

/-- The same for the declarations of a list of trees. -/
theorem Tree.mergeInto_induction (nil : Q (fun _ m => m) [])
    (append : ∀ {f g ds es}, Merging.Growing f → Q f ds → Q g es →
      Q (fun name m => g name (f name m)) (ds ++ es))
    (meet : ∀ {node : Node} {inside inner}, node.isBlank = false → node.sectionMarker? = none →
      Merging.Growing inside → Q inside inner →
        Q (fun name m => m.meet keep name node inside) (node.declares inner)) :
    ∀ trees : List Tree, Q (mergeInto keep trees) (trees.flatMap declarations)
  | [] => nil
  | t :: rest => by
    have grows : Merging.Growing fun name => mergeBody keep name .pub (t.outline root).body :=
      fun name m ok => grows_mergeBody keep _ name .pub m ok
    have first := mergeBody_induction nil append meet (t.outline root).body .pub
    have both := append grows first (mergeInto_induction nil append meet rest)
    exact both

end Induction

/-! ## The merge of trees -/

namespace Tree

/-- The merge of whole trees on top of an earlier merge. -/
def mergeOnto (keep : Keep) (m : Merging) (trees : List Tree) : Merging :=
  trees.foldl (fun m t => mergeBody keep "" .pub (t.outline root).body m) m

theorem mergeOnto_append (keep : Keep) (m : Merging) (xs ys : List Tree) :
    mergeOnto keep m (xs ++ ys) = mergeOnto keep (mergeOnto keep m xs) ys :=
  List.foldl_append

theorem grows_mergeOnto (keep : Keep) :
    ∀ (trees : List Tree) (m : Merging), m.Numbered → m.Grows (mergeOnto keep m trees)
  | [], m, _ => .refl m
  | t :: rest, m, numbered => by
    have first := grows_mergeBody keep (t.outline root).body "" .pub m numbered
    exact first.trans (grows_mergeOnto keep rest _ (first.numbered numbered))

theorem numbered_mergeOnto (keep : Keep) (trees : List Tree) :
    (mergeOnto keep {} trees).Numbered :=
  (grows_mergeOnto keep trees {} Merging.numbered_empty).numbered Merging.numbered_empty

/-- The level of merged trees: the first one that is not empty. -/
def firstStrictness (trees : List Tree) : Option String :=
  (trees.filterMap Tree.strictness).find? fun level => level ≠ ""

theorem firstStrictness_append (xs ys : List Tree) :
    firstStrictness (xs ++ ys) = (firstStrictness xs).or (firstStrictness ys) := by
  rw [firstStrictness, List.filterMap_append, List.find?_append]
  rfl

theorem merge_eq (keep : Keep) (trees : List Tree) :
    merge keep trees = (ofEntries (firstStrictness trees) (mergeOnto keep {} trees),
      (mergeOnto keep {} trees).conflicts) := rfl

theorem conflicts_merge (keep : Keep) (trees : List Tree) :
    (merge keep trees).2 = (mergeOnto keep {} trees).conflicts := rfl

theorem strictness_merge (keep : Keep) (trees : List Tree) :
    (merge keep trees).1.strictness = firstStrictness trees := rfl

theorem outline_merge (keep : Keep) (trees : List Tree) :
    (merge keep trees).1.outline root =
      .mk .root (Entry.outlines (mergeOnto keep {} trees).entries) :=
  outline_root_ofEntries _ (grows_mergeOnto keep trees {} Merging.numbered_empty)

end Tree

end InterfaceFile
