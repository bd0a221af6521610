import InterfaceFile.Proofs.Lint.Grouped
import Mathlib.Data.List.TakeWhile

/-!
# Attributes under one name

An attribute with several names is entered under each of them, and its definition there is narrowed
to that name. The name is found again after the last `#` of the qualified name, so a name that has a
`#` itself is not found; and a name that is listed twice stays listed twice.
-/

namespace InterfaceFile

namespace DeclEntry

variable {e : DeclEntry} {a : Attribute} {x : String}

/-- The part of a name after its last `#`; the whole name if it has none. -/
def afterHash (name : String) : String :=
  String.ofList (name.toList.reverse.takeWhile (· ≠ '#')).reverse

/-- The name of a scope makes no difference to the part after the last `#`. -/
theorem member?_join (scope x : String) : member? (scope ++ "#" ++ x) = some (afterHash x) := by
  have chars : (scope ++ "#" ++ x).toList = scope.toList ++ '#' :: x.toList := by simp
  have marked : '#' ∈ scope.toList ++ '#' :: x.toList := by simp
  have back : (scope.toList ++ '#' :: x.toList).reverse =
      x.toList.reverse ++ '#' :: scope.toList.reverse := by simp
  rw [member?, chars, if_pos marked, back, List.takeWhile_append]
  split
  · next whole =>
    have plain := List.takeWhile_prefix (· ≠ '#') |>.eq_of_length whole
    rw [List.takeWhile_cons_of_neg (by simp), List.append_nil, afterHash, plain]
  · rfl

theorem afterHash_eq_self : afterHash x = x ↔ '#' ∉ x.toList := by
  rw [← String.toList_inj, afterHash, String.toList_ofList, ← List.reverse_inj, List.reverse_reverse,
    List.takeWhile_eq_self_iff]
  simp [List.forall_mem_ne']

/-- Under the name of a member an attribute keeps the names that read like what stands after the last
    `#` of that member. -/
theorem definition_of_attr (declared : e.node.decl = .attr a) {scope : String}
    (named : e.name = scope ++ "#" ++ x) :
    e.definition = { decl := .attr { a.stripped with
      names := List.replicate (a.names.count (afterHash x)) (afterHash x) } } := by
  have bare : e.node.stripped = { decl := .attr a.stripped } := by rw [Node.stripped, declared]
  rw [definition, bare, named, member?_join]
  show ({ decl := .attr { a.stripped with names := a.names.filter (· = afterHash x) } } : Node) = _
  rw [List.filter_eq]

/-- The narrowed attribute lists its member alone if the member is found and listed once. -/
theorem definition_eq_single (declared : e.node.decl = .attr a) {scope : String}
    (named : e.name = scope ++ "#" ++ x) :
    e.definition = { decl := .attr { a.stripped with names := [x] } } ↔
      '#' ∉ x.toList ∧ a.names.count x = 1 := by
  have alone : [x] = List.replicate 1 x := rfl
  rw [definition_of_attr declared named, ← afterHash_eq_self, alone]
  simp only [Node.mk.injEq, Declaration.attr.injEq, Attribute.mk.injEq, true_and, and_true,
    List.replicate_inj]
  constructor
  · rintro ⟨once, none | found⟩
    · omega
    · exact ⟨found, found ▸ once⟩
  · rintro ⟨found, once⟩
    exact ⟨found.symm ▸ once, .inr found⟩

/-- Two attributes agree under one name if they agree in all but their names, and list what stands after
    its last `#` equally often. -/
theorem definition_eq_iff {e' : DeclEntry} {a' : Attribute} (declared : e.node.decl = .attr a)
    (declared' : e'.node.decl = .attr a') {scope : String} (named : e.name = scope ++ "#" ++ x)
    (same : e'.name = e.name) :
    e.definition = e'.definition ↔ a.access = a'.access ∧ a.visibility = a'.visibility ∧
      a.sigs.map Sig.stripped = a'.sigs.map Sig.stripped ∧
        a.names.count (afterHash x) = a'.names.count (afterHash x) := by
  rw [definition_of_attr declared named, definition_of_attr declared' (same.trans named)]
  simp only [Node.mk.injEq, Declaration.attr.injEq, Attribute.mk.injEq, Attribute.stripped, and_true,
    List.replicate_inj, or_true]
  tauto

end DeclEntry

/-- An attribute that lists `x` declares `x` in its scope. -/
theorem Site.names_of_attr {s : Site} {a : Attribute} (declared : s.node.decl = .attr a) :
    s.names = a.names.map fun x => s.tree.enclosingName s.id ++ "#" ++ x := by
  have own : (s.tree.node s.id).decl = .attr a := declared
  rw [names, Node.declaresName, declared, if_pos rfl, Tree.declaredNames, Node.declaredIn, own]

/-- Every attribute that is entered under a name is an attached statement of one of the trees, and the
    name is made of its scope and of one of the names that it lists. Its definition there is the
    attribute without comments and locations that lists what stands after the last `#` of that name, as
    often as the attribute does. That is the name alone exactly if the name has no `#` and is listed
    once. Two attributes that are entered under the name have equal definitions there exactly if they
    agree in access, visibility and signatures and list that part equally often. -/
theorem attributes_are_narrowed_to_their_member {ts : List Tree} (linked : ∀ t ∈ ts, t.Linked)
    {name : String} {e : DeclEntry} (entered : e ∈ (DeclIndex.ofTrees ts).get name) {a : Attribute}
    (declared : e.node.decl = .attr a) :
    ∃ t x, ts[e.tree]? = some t ∧ e.node = t.node e.id ∧ Tree.root ∈ t.lineage e.id ∧
      x ∈ a.names ∧ name = t.enclosingName e.id ++ "#" ++ x ∧
      e.definition = { decl := .attr { a.stripped with
        names := List.replicate (a.names.count (DeclEntry.afterHash x)) (DeclEntry.afterHash x) } } ∧
      (e.definition = { decl := .attr { a.stripped with names := [x] } } ↔
        '#' ∉ x.toList ∧ a.names.count x = 1) ∧
      ∀ e' ∈ (DeclIndex.ofTrees ts).get name, ∀ a', e'.node.decl = .attr a' →
        (e.definition = e'.definition ↔ a.access = a'.access ∧ a.visibility = a'.visibility ∧
          a.sigs.map Sig.stripped = a'.sigs.map Sig.stripped ∧
            a.names.count (DeclEntry.afterHash x) = a'.names.count (DeclEntry.afterHash x)) := by
  obtain ⟨s, stands, listed, rfl⟩ := (DeclIndex.mem_get linked).1 entered
  obtain ⟨found, -, attached⟩ := (Site.mem_sites linked).1 stands
  rw [Site.names_of_attr declared] at listed
  obtain ⟨x, member, rfl⟩ := List.mem_map.1 listed
  refine ⟨s.tree, x, found, rfl, attached, member, rfl, DeclEntry.definition_of_attr declared rfl,
    DeclEntry.definition_eq_single declared rfl, fun e' entered' a' declared' => ?_⟩
  obtain ⟨s', -, -, rfl⟩ := (DeclIndex.mem_get linked).1 entered'
  exact DeclEntry.definition_eq_iff declared declared' rfl rfl

theorem attributes_are_narrowed_to_their_member_sharedNames :
    ∃ e ∈ (DeclIndex.ofTrees sharedNames).get "A#y",
      e.node.decl = .attr { access := .reader, names := ["x", "y", "x"] } ∧
        e.definition = { decl := .attr { access := .reader, names := ["y"] } } := by
  let e : DeclEntry :=
    { tree := 0, id := 2, name := "A#y"
      node := { decl := .attr { access := .reader, names := ["x", "y", "x"] } } }
  have entered : e ∈ (DeclIndex.ofTrees sharedNames).get "A#y" := by decide +kernel
  obtain ⟨t, x, found, -, -, listed, name, -, single, -⟩ :=
    attributes_are_narrowed_to_their_member linked_sharedNames entered rfl
  have scope : t.enclosingName e.id = "A" := by
    obtain rfl : sharedNames[0] = t := Option.some.inj found
    decide +kernel
  rw [scope] at name
  have other : "A#y" ≠ "A" ++ "#" ++ "x" := by decide
  obtain rfl : x = "y" := by
    rcases List.mem_cons.1 listed with rfl | listed
    · exact absurd name other
    · rcases List.mem_cons.1 listed with rfl | listed
      · rfl
      · exact absurd (List.mem_singleton.1 listed ▸ name) other
  exact ⟨e, entered, rfl, single.2 (by decide)⟩

/-- A name that is listed twice, the same name listed once, and a name with a `#`. -/
def oddMembers : Tree :=
  let attr (names : List String) : Outline := .mk { decl := .attr { access := .reader, names } } []
  .ofOutlines none [attr ["a", "a"], attr ["a"], attr ["\"a#b\""]]

/-- Not every definition lists the member alone under which it is entered: it can list it twice, or not
    at all. So attributes that agree in all but their names can have different definitions. -/
theorem odd_members_are_not_narrowed :
    let ix := DeclIndex.ofTrees [oddMembers]
    let single (x : String) : Node := { decl := .attr { access := .reader, names := [x] } }
    (¬ ∀ e ∈ ix.get "#a", e.definition = single "a") ∧
      (¬ ∀ e ∈ ix.get "#a", ∀ e' ∈ ix.get "#a", e.definition = e'.definition) ∧
      ¬ ∀ e ∈ ix.get "#\"a#b\"", e.definition = single "\"a#b\"" := by
  decide +kernel

end InterfaceFile
