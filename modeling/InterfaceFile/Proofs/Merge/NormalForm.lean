import InterfaceFile.Proofs.Merge.Steps

/-!
# The normal form of merged statements

What a merge leaves has no empty lines and no visibility markers, no two declarations of a scope with
one key, and statements inside scopes only. To merge such statements into nothing gives them back
without a conflict: nothing of what a finished merge knows is lost in the tree, except the keys that
were dropped.
-/

namespace InterfaceFile

/-! ## Normal statements -/

/-- Statements as a merge leaves them. -/
inductive Outline.Normal : List Outline → Prop
  | nil : Normal []
  | cons {node : Node} {body rest : List Outline} (keyed : node.isBlank = false)
      (plain : node.sectionMarker? = none) (leaf : node.isScope = false → body = [])
      (fresh : ∀ o ∈ rest, o.node.key? ≠ node.key?) (inside : Normal body) (later : Normal rest) :
      Normal (.mk node body :: rest)

/-- Nothing is dropped, neither among the entries nor inside them. -/
inductive Entry.Whole : List Entry → Prop
  | nil : Whole []
  | cons {id : NodeId} {node : Node} {body rest : List Entry} (inside : Whole body)
      (later : Whole rest) : Whole (.mk id node false body :: rest)

namespace Outline

variable {node node' : Node} {body body' os ps : List Outline}

/-- Normal statements one after the other are normal if they have no key in common. -/
theorem normal_append : Normal (os ++ ps) ↔
    Normal os ∧ Normal ps ∧ ∀ o ∈ os, ∀ p ∈ ps, p.node.key? ≠ o.node.key? := by
  induction os with
  | nil => simp [Normal.nil]
  | cons o rest ih =>
    constructor
    · intro h
      cases h with
      | cons keyed plain leaf fresh inside later =>
        obtain ⟨first, second, apart⟩ := ih.1 later
        refine ⟨.cons keyed plain leaf ?_ inside first, second, ?_⟩
        · exact fun o member => fresh o (List.mem_append_left _ member)
        · refine List.forall_mem_cons.2 ⟨?_, apart⟩
          exact fun p member => fresh p (List.mem_append_right _ member)
    · rintro ⟨first, second, apart⟩
      obtain ⟨here, later⟩ := List.forall_mem_cons.1 apart
      cases first with
      | cons keyed plain leaf fresh inside after =>
        apply Normal.cons keyed plain leaf _ inside (ih.2 ⟨after, second, later⟩)
        intro o member
        rcases List.mem_append.1 member with left | right
        · exact fresh o left
        · exact here o right

/-- A statement can make way for a normal one with its key. -/
theorem Normal.replace (h : Normal (os ++ .mk node body :: ps)) (key : node'.key? = node.key?)
    (keyed : node'.isBlank = false) (plain : node'.sectionMarker? = none)
    (leaf : node'.isScope = false → body' = []) (inside : Normal body') :
    Normal (os ++ .mk node' body' :: ps) := by
  obtain ⟨before, here, apart⟩ := normal_append.1 h
  cases here with
  | cons _ _ _ fresh _ later =>
    refine normal_append.2 ⟨before, .cons keyed plain leaf ?_ inside later, ?_⟩
    · intro o member
      rw [key]
      exact fresh o member
    · intro o member
      obtain ⟨first, others⟩ := List.forall_mem_cons.1 (apart o member)
      exact List.forall_mem_cons.2 ⟨fun same => first (key.symm.trans same), others⟩

/-- A statement can be left out. -/
theorem Normal.erase {o : Outline} (h : Normal (os ++ o :: ps)) : Normal (os ++ ps) := by
  obtain ⟨before, here, apart⟩ := normal_append.1 h
  cases here with
  | cons _ _ _ _ _ later =>
    apply normal_append.2
    exact ⟨before, later, fun o member => (List.forall_mem_cons.1 (apart o member)).2⟩

theorem Normal.nodup_keys (h : Normal os) : (os.map fun o => o.node.key?).Nodup := by
  induction h with
  | nil => exact List.nodup_nil
  | @cons node body rest _ _ _ fresh _ _ _ later =>
    rw [List.map_cons, List.nodup_cons]
    refine ⟨fun again => ?_, later⟩
    obtain ⟨o, member, same⟩ := List.mem_map.1 again
    exact fresh o member same

/-- A normal statement is neither an empty line nor a marker, and the ones inside it are normal. -/
theorem Normal.of_mem (h : Normal os) {o : Outline} (member : o ∈ os) :
    o.node.isBlank = false ∧ o.node.sectionMarker? = none ∧ Normal o.body := by
  induction h with
  | nil => cases member
  | cons keyed plain _ _ inside _ _ later =>
    rcases List.mem_cons.1 member with rfl | rest
    · exact ⟨keyed, plain, inside⟩
    · exact later rest

end Outline

/-! ## What normal statements declare -/

namespace Outline

variable {node : Node} {body os rest : List Outline}

theorem declarationsAll_cons (keyed : node.isBlank = false) (plain : node.sectionMarker? = none) :
    declarationsAll .pub (.mk node body :: rest) =
      node.declares (declarationsAll .pub body) ++ declarationsAll .pub rest := by
  have marker : (mk node body).node.sectionMarker? = none := plain
  rw [declarationsAll, marker]
  simp only [declarations, keyed, Bool.false_eq_true, if_false, Node.inSection_pub]

theorem Normal.declaredAt_nil (h : Normal os) :
    Located.declaredAt [] (declarationsAll .pub os) = os.map Outline.node := by
  induction h with
  | nil => rfl
  | cons keyed plain _ _ _ _ _ ih =>
    rw [declarationsAll_cons keyed plain, Located.declaredAt_append, Located.declaredAt_declares, ih]
    rfl

theorem Normal.below_of_ne (h : Normal os) {s : String}
    (others : ∀ o ∈ os, o.node.key? ≠ some (.scope s)) :
    Located.below s (declarationsAll .pub os) = [] := by
  induction h with
  | nil => rfl
  | @cons node body rest keyed plain _ _ _ _ _ ih =>
    obtain ⟨other, later⟩ := List.forall_mem_cons.1 others
    have apart : node.key? ≠ some (.scope s) := other
    rw [declarationsAll_cons keyed plain, Located.below_append, Located.below_declares_of_ne apart,
      ih later]
    rfl

/-- One statement has all that is declared in the scope with a name. -/
theorem Normal.below_eq (h : Normal os) (s : String) :
    Located.below s (declarationsAll .pub os) = [] ∨
      ∃ o ∈ os, Located.below s (declarationsAll .pub os) = declarationsAll .pub o.body := by
  induction h with
  | nil => exact .inl rfl
  | @cons node body rest keyed plain _ fresh _ later _ ih =>
    rw [declarationsAll_cons keyed plain, Located.below_append]
    by_cases key : node.key? = some (.scope s)
    · refine .inr ⟨_, List.mem_cons_self, ?_⟩
      rw [Located.below_declares key, later.below_of_ne fun o member => key ▸ fresh o member,
        List.append_nil]
      rfl
    · rw [Located.below_declares_of_ne key, List.nil_append]
      exact ih.imp_right fun ⟨o, member, eq⟩ => ⟨o, List.mem_cons_of_mem _ member, eq⟩

/-- Along every path the keys are different. -/
theorem Normal.nodup_declaredAt (path : List String) (h : Normal os) :
    ((Located.declaredAt path (declarationsAll .pub os)).map Node.key?).Nodup := by
  induction path generalizing os with
  | nil =>
    rw [h.declaredAt_nil, List.map_map]
    exact h.nodup_keys
  | cons s path ih =>
    rw [Located.declaredAt_cons]
    rcases h.below_eq s with none | ⟨o, member, eq⟩
    · rw [none]
      exact List.nodup_nil
    · rw [eq]
      exact ih (h.of_mem member).2.2

end Outline

/-! ## Entries that are all there -/

theorem Entry.whole_append {es fs : List Entry} : Whole (es ++ fs) ↔ Whole es ∧ Whole fs := by
  induction es with
  | nil => simp [Whole.nil]
  | cons e rest ih =>
    constructor
    · intro h
      cases h with
      | cons inside later =>
        obtain ⟨first, second⟩ := ih.1 later
        exact ⟨.cons inside first, second⟩
    · rintro ⟨first, second⟩
      cases first with
      | cons inside later => exact .cons inside (ih.2 ⟨later, second⟩)

theorem Entry.Whole.of_mem {es : List Entry} (h : Whole es) {e : Entry} (member : e ∈ es) :
    e.dropped = false ∧ Whole e.body := by
  induction h with
  | nil => cases member
  | cons inside later _ ih =>
    rcases List.mem_cons.1 member with rfl | rest
    · exact ⟨rfl, inside⟩
    · exact ih rest

/-! ## Every run leaves a normal form -/

namespace Merging

open Outline (Normal)

/-- A run keeps statements normal. -/
def Normalizing (run : String → Merging → Merging) : Prop :=
  ∀ name (m : Merging), m.Numbered → Normal (Entry.outlines m.entries) →
    Normal (Entry.outlines (run name m).entries)

variable {keep : Keep} {name : String} {node : Node} {inside : String → Merging → Merging}
  {m result : Merging}

/-- What is left of two declarations is neither empty nor a marker. -/
theorem proper_unify {old merged : Node} (same : old.key? = node.key?)
    (stays : (old.unify keep node).node = some merged) (keyed : node.isBlank = false)
    (plain : old.sectionMarker? = none ∧ node.sectionMarker? = none) :
    merged.isBlank = false ∧ merged.sectionMarker? = none := by
  constructor
  · rw [Bool.eq_false_iff, Ne, ← Node.key?_eq_none, Node.key?_unify same stays, same,
      Node.key?_eq_none, keyed]
    simp
  · rcases (Node.stays_unify same stays).decl with decl | decl
    · exact (Node.sectionMarker?_congr decl).trans plain.1
    · exact (Node.sectionMarker?_congr decl).trans plain.2

theorem normal_step (numbered : m.Numbered) (keyed : node.isBlank = false)
    (plain : node.sectionMarker? = none) (inner : Normalizing inside)
    (normal : Normal (Entry.outlines m.entries)) (step : Step keep name node inside m result) :
    Normal (Entry.outlines result.entries) := by
  cases step with
  | @add more fresh run =>
    have deeper : Normal (Entry.outlines more.entries) := by
      rw [run, enter]
      split
      · exact inner _ _ (numbered_start _ _) .nil
      · exact .nil
    have leaf : node.isScope = false → Entry.outlines more.entries = [] := by
      intro leaf
      rw [run, enter, leaf]
      rfl
    have single : Normal [.mk node (Entry.outlines more.entries)] :=
      .cons keyed plain leaf (by simp) deeper .nil
    rw [Entry.outlines_split rfl]
    apply Outline.normal_append.2
    refine ⟨normal, single, ?_⟩
    intro o member p last
    obtain ⟨e, known, -, rfl⟩ := Entry.mem_outlines.1 member
    rw [List.mem_singleton.1 last]
    exact (fresh e known).symm
  | skip found dropped => exact normal
  | drop found stays none =>
    rw [found.split, Entry.outlines_split stays] at normal
    rw [Entry.outlines_split_dropped rfl]
    exact normal.erase
  | @update before after e merged more found stays some run =>
    rw [found.split, Entry.outlines_split stays] at normal
    rw [Entry.outlines_split rfl]
    obtain ⟨-, here, -⟩ := Outline.normal_append.1 normal
    cases here with
    | cons _ marker leaf _ body _ =>
      obtain ⟨keyed', plain'⟩ := proper_unify found.key some keyed ⟨marker, plain⟩
      have key := Node.key?_unify found.key some
      apply normal.replace key keyed' plain'
      · intro merged
        have bare : e.node.isScope = false := (Node.isScope_congr key).symm.trans merged
        rw [run, enter, Node.descend_of_leaf found.key bare]
        exact leaf bare
      · rw [run, enter]
        split
        · exact inner _ _ (numbered.inside _ found.mem) body
        · exact body

theorem normalizing_mergeInto (keep : Keep) (trees : List Tree) :
    Normalizing (Tree.mergeInto keep trees) := by
  apply Tree.mergeInto_induction (Q := fun run _ => Normalizing run)
  · exact fun name m numbered normal => normal
  · intro f g _ _ grows first second name m numbered normal
    apply second name _ ((grows name m numbered).numbered numbered)
    exact first name m numbered normal
  · intro node inside _ keyed plain _ inner name m numbered normal
    exact normal_step numbered keyed plain inner normal (step_meet keep name inside numbered keyed)

/-- A run drops nothing. -/
def Keeping (run : String → Merging → Merging) : Prop :=
  ∀ name (m : Merging), m.Numbered → Entry.Whole m.entries → Entry.Whole (run name m).entries

theorem whole_step (decided : keep ≠ .neither) (numbered : m.Numbered) (inner : Keeping inside)
    (whole : Entry.Whole m.entries) (step : Step keep name node inside m result) :
    Entry.Whole result.entries := by
  cases step with
  | @add more fresh run =>
    apply Entry.whole_append.2
    refine ⟨whole, .cons ?_ .nil⟩
    rw [run, enter]
    split
    · exact inner _ _ (numbered_start _ _) .nil
    · exact .nil
  | skip found dropped => exact whole
  | drop found stays none => exact absurd (Node.eq_neither_of_unify found.key none) decided
  | @update before after e merged more found stays some run =>
    rw [found.split] at whole
    obtain ⟨first, here⟩ := Entry.whole_append.1 whole
    cases here with
    | cons body later =>
      apply Entry.whole_append.2
      refine ⟨first, .cons ?_ later⟩
      rw [run, enter]
      split
      · exact inner _ _ (numbered.inside _ found.mem) body
      · exact body

theorem keeping_mergeInto (decided : keep ≠ .neither) (trees : List Tree) :
    Keeping (Tree.mergeInto keep trees) := by
  apply Tree.mergeInto_induction (Q := fun run _ => Keeping run)
  · exact fun name m numbered whole => whole
  · intro f g _ _ grows first second name m numbered whole
    apply second name _ ((grows name m numbered).numbered numbered)
    exact first name m numbered whole
  · intro node inside _ keyed _ _ inner name m numbered whole
    exact whole_step decided numbered inner whole (step_meet keep name inside numbered keyed)

end Merging

/-! ## Normal statements are merged as they are -/

/-- Normal statements with new keys are added one by one, without a conflict. -/
theorem mergeBody_of_normal {os : List Outline} (h : Outline.Normal os) (keep : Keep)
    (name : String) (m : Merging) (apart : ∀ o ∈ os, ∀ e ∈ m.entries, e.node.key? ≠ o.node.key?) :
    ∃ es, (mergeBody keep name .pub os m).entries = m.entries ++ es ∧
      (mergeBody keep name .pub os m).conflicts = m.conflicts ∧
      Entry.outlines es = os ∧ Entry.Whole es := by
  induction h generalizing name m with
  | nil => exact ⟨[], by simp [mergeBody], by simp [mergeBody], rfl, .nil⟩
  | @cons node body rest keyed plain leaf fresh inside later ihInside ihLater =>
    obtain ⟨own, others⟩ := List.forall_mem_cons.1 apart
    let start : Merging := { next := m.next + 1, conflicts := m.conflicts }
    let inner := Merging.enter node.isScope (fun name => mergeBody keep name .pub body)
      (node.qualifiedIn name) start
    have run : mergeStatement keep name .pub (.mk node body) m =
        { inner with entries := m.entries ++ [.mk m.next node false inner.entries] } := by
      rw [mergeStatement, Node.inSection_pub, Merging.meet_of_fresh keyed own]
    have filled : inner.conflicts = m.conflicts ∧ Entry.outlines inner.entries = body ∧
        Entry.Whole inner.entries := by
      cases scope : node.isScope with
      | true =>
        obtain ⟨es, entries, conflicts, stated, whole⟩ := ihInside (node.qualifiedIn name) start
          (by simp [start])
        have entered : inner = mergeBody keep (node.qualifiedIn name) .pub body start := by
          simp only [inner, Merging.enter, scope, if_true]
        rw [entered, entries, conflicts]
        exact ⟨rfl, stated, whole⟩
      | false =>
        have stayed : inner = start := by simp only [inner, Merging.enter, scope]; rfl
        rw [stayed, leaf scope]
        exact ⟨rfl, rfl, .nil⟩
    obtain ⟨quiet, stated, whole⟩ := filled
    obtain ⟨es, entries, conflicts, stated', whole'⟩ :=
      ihLater name { inner with entries := m.entries ++ [.mk m.next node false inner.entries] } (by
        intro o member e known
        rcases List.mem_append.1 known with old | new
        · exact others o member e old
        · rw [List.mem_singleton.1 new]
          exact (fresh o member).symm)
    have steps : mergeBody keep name .pub (.mk node body :: rest) m =
        mergeBody keep name .pub rest (mergeStatement keep name .pub (.mk node body) m) := by
      rw [mergeBody]
      simp only [Outline.node, plain]
    refine ⟨.mk m.next node false inner.entries :: es, ?_, ?_, ?_, .cons whole whole'⟩
    · rw [steps, run, entries, List.append_assoc]
      rfl
    · rw [steps, run, conflicts]
      exact quiet
    · rw [← List.nil_append (_ :: es), Entry.outlines_split rfl, stated']
      exact congrArg (fun body => .mk node body :: rest) stated

namespace Tree

theorem normal_merge (keep : Keep) (trees : List Tree) :
    Outline.Normal ((merge keep trees).1.outline root).body := by
  rw [outline_merge]
  exact Merging.normalizing_mergeInto keep trees "" {} Merging.numbered_empty .nil

end Tree

end InterfaceFile
