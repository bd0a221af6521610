import InterfaceFile.Proofs.Merge.Standings

/-!
# The declarations that conflicts are recorded for

A conflict has a name and two locations, and this does not tell which declaration it was recorded for:
calls have the name of the scope around them, and nodes that were not read have no locations. Here are
the steps of a merge once more, as far as they record conflicts, and each conflict comes with the
declaration that was merged when it was recorded. Without the declarations they are the conflicts of
the merge.
-/

namespace InterfaceFile

/-- A conflict with the declaration that it was recorded for. -/
structure Report where
  /-- The later declaration, as it stands in its tree. -/
  standing : Standing
  conflict : Conflict
  deriving DecidableEq

namespace Report

/-- The report seen from outside the scope that its declaration stands in. -/
def inside (s : Scope) (r : Report) : Report :=
  { r with standing := r.standing.inside s }

end Report

namespace Node

/-- What is reported for a declaration that meets an earlier one. -/
def reports (keep : Keep) (enclosing : String) (old new : Node) : List Report :=
  (old.unify keep new).conflict.toList.map fun kind =>
    { standing := { around := [], node := new }
      conflict := { kind, name := old.qualifiedIn enclosing, left := old.loc, right := new.loc } }

/-- What is reported inside a declaration, if it is a scope that is entered. -/
def reportsInside (node : Node) (descend : Bool) (reports : List Report) : List Report :=
  match node.scope? with
  | some s => if descend then reports.map (Report.inside s) else []
  | none => []

/-- What is not a scope has nothing inside it, whether it is entered or not. -/
theorem reportsInside_isScope (node : Node) (reports : List Report) :
    node.reportsInside node.isScope reports = node.reportsInside true reports := by
  rw [reportsInside, reportsInside, isScope]
  cases node.scope? <;> rfl

theorem mem_reports {keep : Keep} {enclosing : String} {old new : Node} {r : Report}
    (reported : r ∈ old.reports keep enclosing new) :
    r.standing = { around := [], node := new } ∧ r.conflict.right = new.loc ∧
      (old.unify keep new).conflict ≠ none := by
  rw [reports, List.mem_map] at reported
  obtain ⟨kind, conflict, rfl⟩ := reported
  exact ⟨rfl, rfl, fun none => by simp [none] at conflict⟩

theorem mem_reportsInside {node : Node} {descend : Bool} {inside : List Report} {r : Report}
    (reported : r ∈ node.reportsInside descend inside) :
    ∃ s, node.scope? = some s ∧ descend = true ∧ ∃ r' ∈ inside, r = r'.inside s := by
  rw [reportsInside] at reported
  cases hs : node.scope? with
  | none => simp [hs] at reported
  | some s =>
    cases descend with
    | false => simp [hs] at reported
    | true =>
      rw [hs] at reported
      obtain ⟨r', member, rfl⟩ := List.mem_map.1 reported
      exact ⟨s, rfl, rfl, r', member, rfl⟩

end Node

namespace Merging

/-- What is reported for a declaration and for those inside it. -/
def reports (m : Merging) (keep : Keep) (enclosing : String) (node : Node)
    (inside : String → Merging → List Report) : List Report :=
  match node.key? with
  | none => []
  | some key => match m.find? key with
    | none =>
      node.reportsInside true
        (inside (node.qualifiedIn enclosing) { next := m.next + 1, conflicts := m.conflicts })
    | some e =>
      if e.dropped then []
      else
        let union := e.node.unify keep node
        let m := m.report enclosing e.node node union
        e.node.reports keep enclosing node ++ match union.node with
          | none => []
          | some merged =>
            node.reportsInside union.descend
              (inside (merged.qualifiedIn enclosing)
                { entries := e.body, next := m.next, conflicts := m.conflicts })

end Merging

mutual

/-- What is reported for a statement. -/
def reportsOf (keep : Keep) (enclosing : String) (level : Visibility) :
    Outline → Merging → List Report
  | .mk node body, m =>
    m.reports keep enclosing (node.inSection level) fun name => reportsOfAll keep name .pub body

/-- What is reported for the statements of a body. -/
def reportsOfAll (keep : Keep) (enclosing : String) (level : Visibility) :
    List Outline → Merging → List Report
  | [], _ => []
  | statement :: rest, m => match statement.node.sectionMarker? with
    | some level => reportsOfAll keep enclosing level rest m
    | none =>
      reportsOf keep enclosing level statement m ++
        reportsOfAll keep enclosing level rest (mergeStatement keep enclosing level statement m)

end

namespace Tree

/-- What is reported for the declarations of trees that are merged into the scope with a name. -/
def reportsInto (keep : Keep) : List Tree → String → Merging → List Report
  | [], _, _ => []
  | t :: rest, name, m =>
    let body := (t.outline root).body
    reportsOfAll keep name .pub body m ++
      reportsInto keep rest name (mergeBody keep name .pub body m)

/-- The conflicts of a merge, each with the declaration that it was recorded for. -/
def reports (keep : Keep) (trees : List Tree) : List Report :=
  reportsInto keep trees "" {}

end Tree

/-! ## Runs with their reports -/

section Induction

variable {keep : Keep}
  {Q : (String → Merging → Merging) → (String → Merging → List Report) → List Standing → Prop}

/-- A property of runs with what they report and what they declare holds of every body if it holds of
    the run that does nothing, of two runs one after the other, and of one declaration with a run
    inside it. -/
theorem reportsOfAll_induction (nil : Q (fun _ m => m) (fun _ _ => []) [])
    (append : ∀ {f g rf rg ds es}, Merging.Growing f → Q f rf ds → Q g rg es →
      Q (fun name m => g name (f name m)) (fun name m => rf name m ++ rg name (f name m)) (ds ++ es))
    (meet : ∀ {node : Node} {inside reports inner}, node.isBlank = false →
      node.sectionMarker? = none → Merging.Growing inside → Q inside reports inner →
        Q (fun name m => m.meet keep name node inside)
          (fun name m => m.reports keep name node reports) (node.stands inner)) :
    ∀ (os : List Outline) (level : Visibility),
      Q (fun name => mergeBody keep name level os) (fun name => reportsOfAll keep name level os)
        (Outline.standingsAll level os)
  | [], _ => by
    simpa only [mergeBody, reportsOfAll, Outline.standingsAll] using nil
  | .mk node body :: rest, level => by
    have later := fun level => reportsOfAll_induction nil append meet rest level
    have inner := reportsOfAll_induction nil append meet body .pub
    cases marker : node.sectionMarker? with
    | some next =>
      simpa only [mergeBody, reportsOfAll, Outline.standingsAll, Outline.node, marker] using
        later next
    | none =>
      have first : Q (fun name => mergeStatement keep name level (.mk node body))
          (fun name => reportsOf keep name level (.mk node body))
          ((Outline.mk node body).standings level) := by
        simp only [mergeStatement, reportsOf, Outline.standings]
        cases blank : node.isBlank with
        | true =>
          have none : (node.inSection level).key? = none := by
            rw [Node.key?_inSection]
            exact Node.key?_eq_none.2 blank
          simpa [Merging.meet, Merging.reports, none] using nil
        | false =>
          apply meet
          · rw [Node.isBlank_inSection, blank]
          · rw [Node.sectionMarker?_inSection, marker]
          · exact fun name m ok => grows_mergeBody keep body name .pub m ok
          · exact inner
      have grows : Merging.Growing fun name => mergeStatement keep name level (.mk node body) :=
        fun name m ok => grows_mergeStatement keep _ name level m ok
      simpa only [mergeBody, reportsOfAll, Outline.standingsAll, Outline.node, marker] using
        append grows first (later level)

/-- The same for the declarations of a list of trees. -/
theorem Tree.reportsInto_induction (nil : Q (fun _ m => m) (fun _ _ => []) [])
    (append : ∀ {f g rf rg ds es}, Merging.Growing f → Q f rf ds → Q g rg es →
      Q (fun name m => g name (f name m)) (fun name m => rf name m ++ rg name (f name m)) (ds ++ es))
    (meet : ∀ {node : Node} {inside reports inner}, node.isBlank = false →
      node.sectionMarker? = none → Merging.Growing inside → Q inside reports inner →
        Q (fun name m => m.meet keep name node inside)
          (fun name m => m.reports keep name node reports) (node.stands inner)) :
    ∀ trees : List Tree,
      Q (mergeInto keep trees) (reportsInto keep trees) (trees.flatMap standings)
  | [] => nil
  | t :: rest => by
    have grows : Merging.Growing fun name => mergeBody keep name .pub (t.outline root).body :=
      fun name m ok => grows_mergeBody keep _ name .pub m ok
    have first := reportsOfAll_induction nil append meet (t.outline root).body .pub
    have both := append grows first (reportsInto_induction nil append meet rest)
    exact both

end Induction

/-! ## Single steps -/

namespace Merging

variable {m result : Merging} {keep : Keep} {enclosing : String} {node : Node}
  {reports : String → Merging → List Report} {before after : List Entry} {e : Entry}

theorem reports_of_fresh (keyed : node.isBlank = false)
    (fresh : ∀ e ∈ m.entries, e.node.key? ≠ node.key?) :
    m.reports keep enclosing node reports = node.reportsInside true
      (reports (node.qualifiedIn enclosing) { next := m.next + 1, conflicts := m.conflicts }) := by
  obtain ⟨key, hk⟩ := exists_key keyed
  simp only [Merging.reports, hk, find?_eq_none (hk ▸ fresh)]

theorem reports_of_dropped (keyed : node.isBlank = false)
    (found : Finds m.entries node.key? before e after) (dropped : e.dropped = true) :
    m.reports keep enclosing node reports = [] := by
  obtain ⟨key, hk⟩ := exists_key keyed
  simp only [Merging.reports, hk, (hk ▸ found).find?_eq, dropped, if_true]

theorem reports_of_none (keyed : node.isBlank = false)
    (found : Finds m.entries node.key? before e after) (stays : e.dropped = false)
    (none : (e.node.unify keep node).node = none) :
    m.reports keep enclosing node reports = e.node.reports keep enclosing node := by
  obtain ⟨key, hk⟩ := exists_key keyed
  simp [Merging.reports, hk, (hk ▸ found).find?_eq, stays, none]

theorem reports_of_some {merged : Node} (keyed : node.isBlank = false)
    (found : Finds m.entries node.key? before e after) (stays : e.dropped = false)
    (some : (e.node.unify keep node).node = some merged) :
    m.reports keep enclosing node reports = e.node.reports keep enclosing node ++
      node.reportsInside (e.node.unify keep node).descend (reports (merged.qualifiedIn enclosing)
        { entries := e.body, next := m.next,
          conflicts := (m.report enclosing e.node node (e.node.unify keep node)).conflicts }) := by
  obtain ⟨key, hk⟩ := exists_key keyed
  simp only [Merging.reports, hk, (hk ▸ found).find?_eq, stays, some, next_report,
    Bool.false_eq_true, if_false]

/-- A report is one for the declaration itself or one from inside it. -/
theorem mem_reports_cases {r : Report} (reported : r ∈ m.reports keep enclosing node reports) :
    (∃ old, r ∈ Node.reports keep enclosing old node) ∨
      ∃ name n s, ∃ r' ∈ reports name n, r = r'.inside s := by
  have deeper : ∀ {descend name n}, r ∈ node.reportsInside descend (reports name n) →
      ∃ name n s, ∃ r' ∈ reports name n, r = r'.inside s := by
    intro descend name n inside
    obtain ⟨s, -, -, r', member, rfl⟩ := Node.mem_reportsInside inside
    exact ⟨name, n, s, r', member, rfl⟩
  unfold Merging.reports at reported
  split at reported
  · cases reported
  split at reported
  · exact .inr (deeper reported)
  split at reported
  · cases reported
  rcases List.mem_append.1 reported with own | inside
  · exact .inl ⟨_, own⟩
  · split at inside
    · cases inside
    · exact .inr (deeper inside)

theorem conflicts_report_eq (m : Merging) (enclosing : String) (old new : Node) :
    (m.report enclosing old new (old.unify keep new)).conflicts =
      m.conflicts ++ (old.reports keep enclosing new).map Report.conflict := by
  rw [report, Node.reports]
  cases (old.unify keep new).conflict <;> rfl

/-- A run reports the conflicts that it records, each for one of the declarations that it merges and
    with its location. -/
structure Reports (run : String → Merging → Merging) (reports : String → Merging → List Report)
    (ds : List Standing) : Prop where
  conflicts : ∀ name (m : Merging), m.Numbered →
    (run name m).conflicts = m.conflicts ++ (reports name m).map Report.conflict
  declared : ∀ name (m : Merging), m.Numbered → ((reports name m).map Report.standing).Sublist ds
  located : ∀ name (m : Merging), ∀ r ∈ reports name m, r.conflict.right = r.standing.node.loc

/-- A scope that is entered reports what is reported inside it. -/
theorem Reports.enter {inside : String → Merging → Merging} {inner : List Standing} {descend : Bool}
    {n : Merging} (h : Reports inside reports inner) (numbered : n.Numbered) (name : String)
    (scopes : descend = true → node.isScope = true) :
    (Merging.enter descend inside name n).conflicts =
      n.conflicts ++ (node.reportsInside descend (reports name n)).map Report.conflict := by
  rw [Merging.enter, Node.reportsInside]
  cases descend with
  | false => cases node.scope? <;> simp
  | true =>
    obtain ⟨s, opens⟩ := Option.isSome_iff_exists.1 (scopes rfl)
    rw [opens]
    simp only [if_true, List.map_map, h.conflicts name n numbered]
    rfl

/-- What is reported for a node itself, and then inside it, is reported in the order in which the node
    declares. -/
theorem sublist_stands {own inside : List Report} {inner : List Standing} {descend : Bool}
    (first : (own.map Report.standing).Sublist [{ around := [], node }])
    (deeper : (inside.map Report.standing).Sublist inner) :
    ((own ++ node.reportsInside descend inside).map Report.standing).Sublist (node.stands inner) := by
  rw [List.map_append]
  refine first.append ?_
  rw [Node.reportsInside]
  cases node.scope? with
  | none => exact List.nil_sublist _
  | some s =>
    cases descend with
    | false => exact List.nil_sublist _
    | true =>
      have outer : (inside.map (Report.inside s)).map Report.standing =
          (inside.map Report.standing).map (Standing.inside s) := by
        simp only [List.map_map]
        rfl
      simp only [if_true]
      rw [outer]
      exact deeper.map _

theorem declared_reports (old : Node) :
    ((old.reports keep enclosing node).map Report.standing).Sublist [{ around := [], node }] := by
  rw [Node.reports]
  cases (old.unify keep node).conflict with
  | none => exact List.nil_sublist _
  | some kind => exact List.Sublist.refl _

/-- One step reports the conflicts that it records. -/
theorem Reports.conflicts_step {inside : String → Merging → Merging} {inner : List Standing}
    (keyed : node.isBlank = false) (h : Reports inside reports inner) (numbered : m.Numbered)
    (step : Step keep enclosing node inside m result) :
    result.conflicts =
      m.conflicts ++ (m.reports keep enclosing node reports).map Report.conflict := by
  cases step with
  | @add more fresh run =>
    rw [reports_of_fresh keyed fresh]
    show more.conflicts = _
    have start := numbered_start (m.next + 1) m.conflicts
    rw [run, h.enter start _ id, Node.reportsInside_isScope]
  | skip found dropped => simp [reports_of_dropped keyed found dropped]
  | drop found stays none =>
    rw [reports_of_none keyed found stays none]
    exact conflicts_report_eq m enclosing _ node
  | @update before after e merged more found stays some run =>
    rw [reports_of_some keyed found stays some, List.map_append, ← List.append_assoc,
      ← conflicts_report_eq]
    show more.conflicts = _
    rw [run, h.enter (numbered.inside _ found.mem) _ (Node.isScope_of_descend found.key)]

/-- One step reports declarations in the order in which they stand. -/
theorem Reports.declared_meet {inside : String → Merging → Merging} {inner : List Standing}
    (keyed : node.isBlank = false) (h : Reports inside reports inner) (numbered : m.Numbered) :
    ((m.reports keep enclosing node reports).map Report.standing).Sublist (node.stands inner) := by
  rcases fresh_or_finds node.key? m.entries with fresh | ⟨before, e, after, found⟩
  · rw [reports_of_fresh keyed fresh, ← List.nil_append (Node.reportsInside _ _ _)]
    exact sublist_stands (List.nil_sublist _) (h.declared _ _ (numbered_start _ _))
  · cases stays : e.dropped with
    | true =>
      rw [reports_of_dropped keyed found stays]
      exact List.nil_sublist _
    | false =>
      cases some : (e.node.unify keep node).node with
      | none =>
        rw [reports_of_none keyed found stays some]
        exact (declared_reports _).trans (List.cons_sublist_cons.2 (List.nil_sublist _))
      | some merged =>
        rw [reports_of_some keyed found stays some]
        exact sublist_stands (declared_reports _) (h.declared _ _ (numbered.inside _ found.mem))

theorem reports_meet {inside : String → Merging → Merging} {inner : List Standing}
    (keyed : node.isBlank = false) (h : Reports inside reports inner) :
    Reports (fun name m => m.meet keep name node inside)
      (fun name m => m.reports keep name node reports) (node.stands inner) := by
  refine ⟨fun name m numbered => ?_, fun name m => h.declared_meet keyed, fun name m r reported => ?_⟩
  · exact h.conflicts_step keyed numbered (step_meet keep name inside numbered keyed)
  · rcases mem_reports_cases reported with ⟨old, own⟩ | ⟨name, n, s, r', inner, rfl⟩
    · obtain ⟨standing, loc, -⟩ := Node.mem_reports own
      rw [standing, loc]
    · exact h.located name n r' inner

/-- Tree after tree, a merge reports the conflicts that it records. -/
theorem reports_mergeInto (keep : Keep) (trees : List Tree) :
    Reports (Tree.mergeInto keep trees) (Tree.reportsInto keep trees)
      (trees.flatMap Tree.standings) := by
  apply Tree.reportsInto_induction (Q := Reports)
  · exact ⟨fun name m _ => (List.append_nil _).symm, fun name m _ => List.Sublist.refl _, by simp⟩
  · intro f g rf rg ds es grows first second
    refine ⟨fun name m numbered => ?_, fun name m numbered => ?_, fun name m r member => ?_⟩
    · have between := (grows name m numbered).numbered numbered
      rw [second.conflicts name _ between, first.conflicts name m numbered, List.map_append,
        List.append_assoc]
    · have between := (grows name m numbered).numbered numbered
      rw [List.map_append]
      exact (first.declared name m numbered).append (second.declared name _ between)
    · exact (List.mem_append.1 member).elim (first.located name m r) (second.located name _ r)
  · intro node inside reports inner keyed _ _ h
    exact reports_meet keyed h

end Merging

namespace Tree

/-- The conflicts of a merge are those that are reported. -/
theorem conflicts_merge_eq_reports (keep : Keep) (trees : List Tree) :
    (merge keep trees).2 = (reports keep trees).map Report.conflict :=
  ((Merging.reports_mergeInto keep trees).conflicts "" {} Merging.numbered_empty).trans
    (List.nil_append _)

/-- Conflicts are recorded for declarations of the merged trees, in order. -/
theorem sublist_standings_reports (keep : Keep) (trees : List Tree) :
    ((reports keep trees).map Report.standing).Sublist (trees.flatMap standings) :=
  (Merging.reports_mergeInto keep trees).declared "" {} Merging.numbered_empty

theorem right_of_mem_reports {keep : Keep} {trees : List Tree} {r : Report}
    (reported : r ∈ reports keep trees) : r.conflict.right = r.standing.node.loc :=
  (Merging.reports_mergeInto keep trees).located "" {} r reported

end Tree

end InterfaceFile
