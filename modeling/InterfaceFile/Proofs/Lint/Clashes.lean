import InterfaceFile.Lint.Check
import InterfaceFile.Proofs.Lint.Grouped

/-!
# Names with several definitions

The check for duplicates compares every declaration of a name with the first one. Where only scopes
declare the name, or none does, that finds out whether two declarations disagree, whatever their order.
Where a scope shares its name with other statements, the first declaration decides: nothing is reported
after a scope, and after anything else every scope is.
-/

namespace InterfaceFile

/-! ## Declarations and their definitions -/

/-- The entry stands for an attached statement of one of the trees, under a name that it declares. -/
def DeclEntry.StandsIn (e : DeclEntry) (ts : List Tree) : Prop :=
  ∃ t ∈ ts, e.node = t.node e.id ∧ e.id ≠ Tree.root ∧ Tree.root ∈ t.lineage e.id ∧
    e.node.declaresName = true ∧ e.name ∈ t.declaredNames e.id

/-- Two declarations of the name are related. -/
def DeclaredPair (R : DeclEntry → DeclEntry → Prop) (ts : List Tree) (name : String) : Prop :=
  ∃ a b : DeclEntry, (a.StandsIn ts ∧ a.name = name) ∧ (b.StandsIn ts ∧ b.name = name) ∧ R a b

/-- Two statements that are no scopes declare the name with different definitions. -/
def Disputed : List Tree → String → Prop :=
  DeclaredPair fun a b => a.node.isScope = false ∧ b.node.isScope = false ∧ a.definition ≠ b.definition

/-- A scope and another statement declare the name. -/
def Mixed : List Tree → String → Prop :=
  DeclaredPair fun a b => a.node.isScope = true ∧ b.node.isScope = false

namespace DeclEntry

variable {ts us : List Tree} {e e' : DeclEntry} {name : String}

theorem isScope_definition (e : DeclEntry) : e.definition.isScope = e.node.isScope := by
  unfold definition Node.stripped Node.isScope Node.scope?
  cases e.node.decl with
  | attr a => cases member? e.name <;> rfl
  | _ => rfl

theorem StandsIn.perm (h : e.StandsIn ts) (order : ts.Perm us) : e.StandsIn us := by
  obtain ⟨t, member, stands⟩ := h
  exact ⟨t, order.mem_iff.1 member, stands⟩

theorem standsIn_of_mem_get (linked : ∀ t ∈ ts, t.Linked)
    (entered : e ∈ (DeclIndex.ofTrees ts).get name) : e.StandsIn ts ∧ e.name = name := by
  obtain ⟨s, stands, listed, rfl⟩ := (DeclIndex.mem_get linked).1 entered
  obtain ⟨found, lower, attached⟩ := (Site.mem_sites linked).1 stands
  rw [Site.names] at listed
  split at listed
  · next named =>
    exact ⟨⟨s.tree, List.mem_of_getElem? found, rfl, lower, attached, named, listed⟩, rfl⟩
  · cases listed

/-- Every declaration is entered in the index, perhaps with another number for its tree. -/
theorem StandsIn.exists_mem_get (h : e.StandsIn ts) (linked : ∀ t ∈ ts, t.Linked) :
    ∃ position, { e with tree := position } ∈ (DeclIndex.ofTrees ts).get e.name := by
  obtain ⟨tree, id, node, name⟩ := e
  obtain ⟨t, member, same, lower, attached, named, listed⟩ := h
  obtain rfl : node = t.node id := same
  obtain ⟨position, found⟩ := List.mem_iff_getElem?.1 member
  let s : Site := { tree := t, position, id }
  have names : s.names = t.declaredNames id := if_pos named
  exact ⟨position, (DeclIndex.mem_get linked).2
    ⟨s, (Site.mem_sites linked).2 ⟨found, lower, attached⟩, names ▸ listed, rfl⟩⟩

end DeclEntry

variable {ts us : List Tree} {name : String}

theorem DeclaredPair.perm {R : DeclEntry → DeclEntry → Prop} (h : DeclaredPair R ts name)
    (order : ts.Perm us) : DeclaredPair R us name := by
  obtain ⟨a, b, ⟨standsA, namedA⟩, ⟨standsB, namedB⟩, related⟩ := h
  exact ⟨a, b, ⟨standsA.perm order, namedA⟩, ⟨standsB.perm order, namedB⟩, related⟩

/-- Related declarations are found in the index if the numbers of their trees do not count. -/
theorem declaredPair_iff {R : DeclEntry → DeclEntry → Prop} (linked : ∀ t ∈ ts, t.Linked)
    (unplaced : ∀ a b i j, R a b → R { a with tree := i } { b with tree := j }) :
    DeclaredPair R ts name ↔
      ∃ a ∈ (DeclIndex.ofTrees ts).get name, ∃ b ∈ (DeclIndex.ofTrees ts).get name, R a b := by
  constructor
  · rintro ⟨a, b, ⟨standsA, rfl⟩, ⟨standsB, namedB⟩, related⟩
    obtain ⟨i, memberA⟩ := standsA.exists_mem_get linked
    obtain ⟨j, memberB⟩ := standsB.exists_mem_get linked
    exact ⟨_, memberA, _, namedB ▸ memberB, unplaced a b i j related⟩
  · rintro ⟨a, memberA, b, memberB, related⟩
    exact ⟨a, b, DeclEntry.standsIn_of_mem_get linked memberA,
      DeclEntry.standsIn_of_mem_get linked memberB, related⟩

theorem disputed_iff (linked : ∀ t ∈ ts, t.Linked) :
    Disputed ts name ↔ ∃ a ∈ (DeclIndex.ofTrees ts).get name, ∃ b ∈ (DeclIndex.ofTrees ts).get name,
      a.node.isScope = false ∧ b.node.isScope = false ∧ a.definition ≠ b.definition :=
  declaredPair_iff linked fun _ _ _ _ related => related

theorem mixed_iff (linked : ∀ t ∈ ts, t.Linked) :
    Mixed ts name ↔ ∃ a ∈ (DeclIndex.ofTrees ts).get name, ∃ b ∈ (DeclIndex.ofTrees ts).get name,
      a.node.isScope = true ∧ b.node.isScope = false :=
  declaredPair_iff linked fun _ _ _ _ related => related

/-! ## What is reported -/

namespace Check

/-- The wording for a name with several definitions. -/
def clashMessage (name : String) : String :=
  "`" ++ name ++ "` is declared more than once with different definitions"

theorem clashMessage_inj {name name' : String} (same : clashMessage name = clashMessage name') :
    name = name' := by
  rw [clashMessage, clashMessage, ← String.toList_inj] at same
  simp only [String.toList_append] at same
  exact String.toList_inj.1 (List.append_cancel_left (List.append_cancel_right same))

/-- The first declaration of a name, with each one that has another definition. -/
def clashesIn : List DeclEntry → List (DeclEntry × DeclEntry)
  | [] => []
  | first :: rest =>
    if first.node.isScope then []
    else (rest.filter fun e => e.definition ≠ first.definition).map fun e => (first, e)

/-- What is reported about a declaration that differs from the first. -/
def clashProblem (clash : DeclEntry × DeclEntry) : Problem :=
  { loc := clash.2.node.loc
    message := clashMessage clash.2.name
    hint := clash.1.node.loc.map fun loc => "first declared at " ++ loc.describe }

/-- The declarations that differ from the first of their name, in the order of the names. -/
def clashes (ts : List Tree) : List (DeclEntry × DeclEntry) :=
  (DeclIndex.ofTrees ts).groups.flatMap fun (_, group) => clashesIn group

theorem mem_clashesIn {group : List DeclEntry} {first e : DeclEntry} :
    (first, e) ∈ clashesIn group ↔ group.head? = some first ∧ e ∈ group ∧
      first.node.isScope = false ∧ e.definition ≠ first.definition := by
  cases group with
  | nil => simp [clashesIn]
  | cons head rest =>
    rw [clashesIn, List.head?_cons]
    cases scope : head.node.isScope with
    | true =>
      rw [if_pos rfl]
      constructor
      · intro none
        cases none
      · rintro ⟨same, -, leaf, -⟩
        rw [← Option.some.inj same, scope] at leaf
        cases leaf
    | false =>
      rw [if_neg (by simp), List.mem_map]
      constructor
      · rintro ⟨e', member, same⟩
        obtain ⟨rfl, rfl⟩ := Prod.mk.inj same
        obtain ⟨later, differs⟩ := List.mem_filter.1 member
        exact ⟨rfl, List.mem_cons_of_mem _ later, scope, by simpa using differs⟩
      · rintro ⟨same, member, -, differs⟩
        obtain rfl := Option.some.inj same
        rcases List.mem_cons.1 member with rfl | later
        · exact absurd rfl differs
        · exact ⟨e, List.mem_filter.2 ⟨later, by simpa using differs⟩, rfl⟩

theorem duplicateProblems_eq {name : String} {group : List DeclEntry}
    (named : ∀ e ∈ group, e.name = name) :
    duplicateProblems name group = (clashesIn group).map clashProblem := by
  cases group with
  | nil => rfl
  | cons first rest =>
    rw [duplicateProblems, clashesIn]
    split
    · rfl
    · rw [List.map_map]
      refine List.map_congr_left fun e member => ?_
      have own : e.name = name := named e (List.mem_cons_of_mem _ (List.mem_of_mem_filter member))
      simp [clashProblem, clashMessage, own]

theorem mem_clashes (linked : ∀ t ∈ ts, t.Linked) {first e : DeclEntry} :
    (first, e) ∈ clashes ts ↔ ((DeclIndex.ofTrees ts).get e.name).head? = some first ∧
      e ∈ (DeclIndex.ofTrees ts).get e.name ∧
        first.node.isScope = false ∧ e.definition ≠ first.definition := by
  obtain ⟨sorted, -⟩ := DeclIndex.groups_ofTrees linked
  rw [clashes, List.mem_flatMap]
  constructor
  · rintro ⟨⟨name, group⟩, member, clash⟩
    obtain ⟨rfl, -⟩ := sorted.mem_iff.1 member
    have found := mem_clashesIn.1 clash
    obtain ⟨-, rfl⟩ := DeclEntry.standsIn_of_mem_get linked found.2.1
    exact found
  · intro found
    have member : (e.name, (DeclIndex.ofTrees ts).get e.name) ∈ (DeclIndex.ofTrees ts).groups :=
      sorted.mem_iff.2 ⟨rfl, List.ne_nil_of_mem found.2.1⟩
    exact ⟨_, member, mem_clashesIn.2 found⟩

/-- One problem is reported for each clash. -/
theorem validate_duplicates (linked : ∀ t ∈ ts, t.Linked) :
    validate ts [.duplicates] = (clashes ts).map clashProblem := by
  obtain ⟨sorted, -⟩ := DeclIndex.groups_ofTrees linked
  rw [validate, List.flatMap_cons, List.flatMap_nil, List.append_nil, problems, clashes,
    List.map_flatMap]
  refine List.flatMap_congr fun ⟨name, group⟩ member => duplicateProblems_eq fun e listed => ?_
  obtain ⟨rfl, -⟩ := sorted.mem_iff.1 member
  exact (DeclEntry.standsIn_of_mem_get linked listed).2

/-- Some problem of the check for duplicates is about the name. -/
def Reports (ts : List Tree) (name : String) : Prop :=
  ∃ problem ∈ validate ts [.duplicates], problem.message = clashMessage name

instance (ts : List Tree) (name : String) : Decidable (Reports ts name) :=
  inferInstanceAs (Decidable (∃ problem ∈ validate ts [.duplicates], _))

theorem reports_iff (linked : ∀ t ∈ ts, t.Linked) :
    Reports ts name ↔ ∃ first ∈ ((DeclIndex.ofTrees ts).get name).head?,
      first.node.isScope = false ∧
        ∃ e ∈ (DeclIndex.ofTrees ts).get name, e.definition ≠ first.definition := by
  rw [Reports, validate_duplicates linked]
  constructor
  · rintro ⟨problem, reported, about⟩
    obtain ⟨⟨first, e⟩, clash, rfl⟩ := List.mem_map.1 reported
    obtain rfl : e.name = name := clashMessage_inj about
    obtain ⟨head, member, leaf, differs⟩ := (mem_clashes linked).1 clash
    exact ⟨first, head, leaf, e, member, differs⟩
  · rintro ⟨first, head, leaf, e, member, differs⟩
    obtain ⟨-, rfl⟩ := DeclEntry.standsIn_of_mem_get linked member
    exact ⟨_, List.mem_map_of_mem ((mem_clashes linked).2 ⟨head, member, leaf, differs⟩), rfl⟩

/-- Behind a first declaration that is no scope, everything that differs is found, and every scope. -/
theorem reports_iff_of_first (linked : ∀ t ∈ ts, t.Linked) :
    Reports ts name ↔
      (∃ first ∈ ((DeclIndex.ofTrees ts).get name).head?, first.node.isScope = false) ∧
        (Disputed ts name ∨ Mixed ts name) := by
  rw [reports_iff linked, disputed_iff linked, mixed_iff linked]
  constructor
  · rintro ⟨first, head, leaf, e, member, differs⟩
    refine ⟨⟨first, head, leaf⟩, ?_⟩
    have entered := List.mem_of_head? head
    cases scope : e.node.isScope with
    | true => exact .inr ⟨e, member, first, entered, scope, leaf⟩
    | false => exact .inl ⟨e, member, first, entered, scope, leaf, differs⟩
  · rintro ⟨⟨first, head, leaf⟩, disputed | mixed⟩
    · -- Two that differ cannot both agree with the first.
      obtain ⟨a, memberA, b, memberB, -, -, differ⟩ := disputed
      by_cases same : a.definition = first.definition
      · exact ⟨first, head, leaf, b, memberB, fun same' => differ (same.trans same'.symm)⟩
      · exact ⟨first, head, leaf, a, memberA, same⟩
    · obtain ⟨a, memberA, -, -, scope, -⟩ := mixed
      refine ⟨first, head, leaf, a, memberA, fun same => ?_⟩
      have kinds := congrArg Node.isScope same
      rw [DeclEntry.isScope_definition, DeclEntry.isScope_definition, scope, leaf] at kinds
      cases kinds

/-- Where no scope shares the name with other statements, the check finds what is disputed. -/
theorem reports_iff_of_not_mixed (linked : ∀ t ∈ ts, t.Linked) (apart : ¬ Mixed ts name) :
    Reports ts name ↔ Disputed ts name := by
  rw [reports_iff_of_first linked]
  constructor
  · rintro ⟨-, disputed | mixed⟩
    · exact disputed
    · exact absurd mixed apart
  · intro disputed
    refine ⟨?_, .inl disputed⟩
    obtain ⟨a, memberA, -, -, leafA, -⟩ := (disputed_iff linked).1 disputed
    cases group : (DeclIndex.ofTrees ts).get name with
    | nil =>
      rw [group] at memberA
      cases memberA
    | cons first rest =>
      refine ⟨first, rfl, ?_⟩
      by_contra scope
      have entered : first ∈ (DeclIndex.ofTrees ts).get name := by
        rw [group]
        exact List.mem_cons_self
      exact apart ((mixed_iff linked).2 ⟨first, entered, a, memberA, by simpa using scope, leafA⟩)

end Check

/-- What is reported are exactly the declarations that have another definition than the first of their
    name, if that is no scope. So a name is reported exactly if its first declaration is no scope and two
    statements that are no scopes disagree or a scope shares the name. Where no scope shares the name with
    other statements, it is reported exactly if two statements that are no scopes disagree, no report is
    about a scope, and the order of the trees does not matter. -/
theorem duplicates_are_exact_where_no_scope_shares_a_name {ts : List Tree}
    (linked : ∀ t ∈ ts, t.Linked) :
    validate ts [.duplicates] = (Check.clashes ts).map Check.clashProblem ∧
    (∀ first e, (first, e) ∈ Check.clashes ts ↔
      ((DeclIndex.ofTrees ts).get e.name).head? = some first ∧
        e ∈ (DeclIndex.ofTrees ts).get e.name ∧
          first.node.isScope = false ∧ e.definition ≠ first.definition) ∧
    ∀ name,
      (Check.Reports ts name ↔
        (∃ first ∈ ((DeclIndex.ofTrees ts).get name).head?, first.node.isScope = false) ∧
          (Disputed ts name ∨ Mixed ts name)) ∧
      (¬ Mixed ts name →
        (Check.Reports ts name ↔ Disputed ts name) ∧
        (∀ clash ∈ Check.clashes ts, clash.2.name = name → clash.2.node.isScope = false) ∧
        ∀ us, ts.Perm us → (Check.Reports us name ↔ Check.Reports ts name)) := by
  refine ⟨Check.validate_duplicates linked, fun first e => Check.mem_clashes linked,
    fun name => ⟨Check.reports_iff_of_first linked, fun apart =>
      ⟨Check.reports_iff_of_not_mixed linked apart, ?_, fun us order => ?_⟩⟩⟩
  · rintro ⟨first, e⟩ clash rfl
    obtain ⟨head, member, leaf, -⟩ := (Check.mem_clashes linked).1 clash
    by_contra scope
    exact apart ((mixed_iff linked).2
      ⟨e, member, first, List.mem_of_head? head, by simpa using scope, leaf⟩)
  · have linked' : ∀ t ∈ us, t.Linked := fun t member => linked t (order.mem_iff.2 member)
    have apart' : ¬ Mixed us name := fun mixed => apart (DeclaredPair.perm mixed order.symm)
    rw [Check.reports_iff_of_not_mixed linked' apart', Check.reports_iff_of_not_mixed linked apart]
    exact ⟨fun disputed => DeclaredPair.perm disputed order.symm,
      fun disputed => DeclaredPair.perm disputed order⟩

/-- A class that is reopened to give its method another parameter. -/
def disputedMethod : List Tree :=
  let method (params : List Param) : Outline := .mk { decl := .method { name := "f", params } } []
  [.ofOutlines none [.mk (.classDef "A" none) [method []]],
    .ofOutlines none [.mk (.classDef "A" none) [method [{ name := "x" }]]]]

theorem duplicates_are_exact_where_no_scope_shares_a_name_disputedMethod :
    (∀ t ∈ disputedMethod, t.Linked) ∧
      (¬ Mixed disputedMethod "A#f" ∧ Disputed disputedMethod "A#f" ∧
        Check.Reports disputedMethod "A#f" ∧ Check.Reports disputedMethod.reverse "A#f") ∧
      ¬ Check.Reports disputedMethod "A" := by
  have linked : ∀ t ∈ disputedMethod, t.Linked := by simp [disputedMethod, Tree.linked_ofOutlines]
  obtain ⟨-, -, rule⟩ := duplicates_are_exact_where_no_scope_shares_a_name linked
  have apart : ¬ Mixed disputedMethod "A#f" := by
    rw [mixed_iff linked]
    decide +kernel
  have disputed : Disputed disputedMethod "A#f" := by
    rw [disputed_iff linked]
    decide +kernel
  obtain ⟨found, -, order⟩ := (rule "A#f").2 apart
  refine ⟨linked, ⟨apart, disputed, found.2 disputed, ?_⟩, ?_⟩
  · exact (order _ (List.reverse_perm _).symm).2 (found.2 disputed)
  · exact fun reported => absurd ((rule "A").1.1 reported).1 (by decide +kernel)

/-- A constant and a class of the same name. -/
def constantThenClass : Tree :=
  .ofOutlines none
    [.mk { decl := .const { name := "A", value := some "1" } } [], .mk (.classDef "A" none) []]

/-- A class and two constants of the same name, which disagree. -/
def classThenConstants : Tree :=
  .ofOutlines none [.mk (.classDef "A" none) [],
    .mk { decl := .const { name := "A", value := some "1" } } [],
    .mk { decl := .const { name := "A", value := some "2" } } []]

/-- After a constant the class is reported although nothing is disputed, and after a class nothing is
    reported although two constants disagree. -/
theorem scope_that_shares_a_name_misleads :
    (Check.Reports [constantThenClass] "A" ∧ ¬ Disputed [constantThenClass] "A" ∧
      ∃ clash ∈ Check.clashes [constantThenClass], clash.2.node.isScope = true) ∧
    Disputed [classThenConstants] "A" ∧ ¬ Check.Reports [classThenConstants] "A" := by
  rw [disputed_iff (by simp [constantThenClass, Tree.linked_ofOutlines]),
    disputed_iff (by simp [classThenConstants, Tree.linked_ofOutlines])]
  decide +kernel

end InterfaceFile
