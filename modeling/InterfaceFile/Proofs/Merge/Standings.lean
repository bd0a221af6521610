import InterfaceFile.Proofs.Merge.NormalForm

/-!
# Declarations and the scopes around them

A path of names does not tell a class from a module. A standing has the headers of the scopes around a
declaration, so that it can be said of what kind they are. Without the kinds it is a declaration with
its path.
-/

namespace InterfaceFile

open Located (declaredAt)

/-- A declaration with the scopes around it, the outermost first. -/
structure Standing where
  around : List Scope
  node : Node
  deriving DecidableEq

namespace Standing

/-- The names of the scopes around the declaration. -/
def path (d : Standing) : List String :=
  d.around.map Scope.name

/-- The declaration with its path. -/
def located (d : Standing) : Located where
  path := d.path
  node := d.node

/-- The declaration seen from outside the scope that it stands in. -/
def inside (s : Scope) (d : Standing) : Standing :=
  { d with around := s :: d.around }

/-- The declaration seen from inside the outermost scope around it, if there is one and it passes a
    test. -/
def within? (test : Scope → Bool) (d : Standing) : Option Standing :=
  match d.around with
  | [] => none
  | s :: around => if test s then some { d with around } else none

/-- The declarations inside the outermost scopes that pass a test, seen from inside them. -/
def below (test : Scope → Bool) (ds : List Standing) : List Standing :=
  ds.filterMap (within? test)

/-- The nodes that stand in no scope. -/
def outermost (ds : List Standing) : List Node :=
  (ds.filter fun d => d.around.isEmpty).map node

variable {test : Scope → Bool} {ds es : List Standing} {d : Standing} {n : Node} {s : Scope}

@[simp]
theorem path_inside (s : Scope) (d : Standing) : (d.inside s).path = s.name :: d.path := rfl

@[simp]
theorem below_append : below test (ds ++ es) = below test ds ++ below test es :=
  List.filterMap_append

@[simp]
theorem outermost_append : outermost (ds ++ es) = outermost ds ++ outermost es := by
  simp [outermost]

theorem mem_below : d ∈ below test ds ↔ ∃ s, test s = true ∧ d.inside s ∈ ds := by
  constructor
  · intro member
    obtain ⟨⟨around, node⟩, given, within⟩ := List.mem_filterMap.1 member
    cases around with
    | nil => cases within
    | cons s around =>
      simp only [within?] at within
      split at within
      · next passes =>
        obtain rfl := Option.some.inj within
        exact ⟨s, passes, given⟩
      · cases within
  · rintro ⟨s, passes, given⟩
    exact List.mem_filterMap.2 ⟨d.inside s, given, by simp [within?, inside, passes]⟩

theorem mem_outermost : n ∈ outermost ds ↔ { around := [], node := n } ∈ ds := by
  constructor
  · intro member
    obtain ⟨⟨around, node⟩, inside, rfl⟩ := List.mem_map.1 member
    obtain ⟨given, none⟩ := List.mem_filter.1 inside
    obtain rfl : around = [] := by simpa using none
    exact given
  · intro given
    exact List.mem_map.2 ⟨_, List.mem_filter.2 ⟨given, rfl⟩, rfl⟩

theorem below_map_inside (test : Scope → Bool) (s : Scope) (ds : List Standing) :
    below test (ds.map (inside s)) = if test s then ds else [] := by
  cases passes : test s <;>
    simp [below, List.filterMap_map, Function.comp_def, within?, inside, passes]

@[simp]
theorem outermost_map_inside (s : Scope) (ds : List Standing) :
    outermost (ds.map (inside s)) = [] := by
  simp [outermost, inside]

end Standing

open Standing (below outermost)

/-- The declaration of a node, with what is declared inside it if it is a scope. -/
def Node.stands (node : Node) (inner : List Standing) : List Standing :=
  { around := [], node } :: match node.scope? with
    | some s => inner.map (Standing.inside s)
    | none => []

namespace Node

variable {node : Node} {inner : List Standing} {test : Scope → Bool} {d : Standing}

@[simp]
theorem outermost_stands : outermost (node.stands inner) = [node] := by
  rw [stands]
  cases node.scope? with
  | none => rfl
  | some s => exact congrArg (node :: ·) (Standing.outermost_map_inside s inner)

theorem below_stands : below test (node.stands inner) =
    match node.scope? with
    | some s => if test s then inner else []
    | none => [] := by
  rw [stands]
  cases node.scope? with
  | none => rfl
  | some s => exact Standing.below_map_inside test s inner

theorem mem_stands : d ∈ node.stands inner ↔ d = { around := [], node } ∨
    ∃ s, node.scope? = some s ∧ ∃ d' ∈ inner, d = d'.inside s := by
  rw [stands, List.mem_cons]
  cases node.scope? with
  | none => simp
  | some s => simp [eq_comm]

theorem map_located_stands :
    (node.stands inner).map Standing.located = node.declares (inner.map Standing.located) := by
  rw [stands, declares, List.map_cons]
  cases node.scope? with
  | none => rfl
  | some s =>
    simp only [List.map_map]
    rfl

end Node

/-! ## The declarations of a tree -/

namespace Outline

mutual

/-- The declarations of a statement that stands in a section with the given visibility. -/
def standings (level : Visibility) : Outline → List Standing
  | mk node body =>
    if node.isBlank then [] else (node.inSection level).stands (standingsAll .pub body)

/-- The declarations of a body from a section with the given visibility on. -/
def standingsAll (level : Visibility) : List Outline → List Standing
  | [] => []
  | o :: rest => match o.node.sectionMarker? with
    | some level => standingsAll level rest
    | none => o.standings level ++ standingsAll level rest

end

/-- Without the kinds of scopes the standings of a body are its declarations. -/
theorem map_located_standingsAll : ∀ (os : List Outline) (level : Visibility),
    (standingsAll level os).map Standing.located = declarationsAll level os
  | [], _ => by simp [standingsAll, declarationsAll]
  | .mk node body :: rest, level => by
    rw [standingsAll, declarationsAll]
    cases (mk node body).node.sectionMarker? with
    | some level => exact map_located_standingsAll rest level
    | none =>
      simp only [standings, declarations, List.map_append, map_located_standingsAll rest level]
      split
      · rfl
      · rw [Node.map_located_stands, map_located_standingsAll body .pub]

/-- Every scope around a declaration is declared itself. -/
theorem mem_standingsAll_around : ∀ (os : List Outline) (level : Visibility) (d : Standing),
    d ∈ standingsAll level os → ∀ outer s inner, d.around = outer ++ s :: inner →
      ∃ node, { around := outer, node } ∈ standingsAll level os ∧ node.scope? = some s
  | [], _, d, member, _, _, _, _ => by
    simp [standingsAll] at member
  | .mk node body :: rest, level, d, member, outer, s, inner, split => by
    have later := fun level => mem_standingsAll_around rest level d
    have deeper := mem_standingsAll_around body .pub
    rw [standingsAll] at member ⊢
    cases marker : node.sectionMarker? with
    | some next =>
      simp only [Outline.node, marker] at member ⊢
      exact later next member outer s inner split
    | none =>
      simp only [Outline.node, marker, List.mem_append] at member ⊢
      rcases member with here | after
      · rw [standings] at here ⊢
        by_cases blank : node.isBlank = true
        · rw [if_pos blank] at here
          cases here
        · rw [if_neg blank] at here ⊢
          rcases Node.mem_stands.1 here with rfl | ⟨t, opens, d', known, rfl⟩
          · simp at split
          · cases outer with
            | nil =>
              obtain rfl : t = s := (List.cons.inj split).1
              exact ⟨_, .inl (Node.mem_stands.2 (.inl rfl)), opens⟩
            | cons u outer =>
              obtain ⟨rfl, tail⟩ := List.cons.inj split
              obtain ⟨found, known, scope⟩ := deeper d' known outer s inner tail
              exact ⟨found, .inl (Node.mem_stands.2 (.inr ⟨t, opens, _, known, rfl⟩)), scope⟩
      · obtain ⟨found, known, scope⟩ := later level after outer s inner split
        exact ⟨found, .inr known, scope⟩

/-- Normal statements declare what they are and what is inside them. -/
theorem Normal.mem_standingsAll {os : List Outline} (h : Normal os) {d : Standing} :
    d ∈ standingsAll .pub os ↔ ∃ o ∈ os, d ∈ o.node.stands (standingsAll .pub o.body) := by
  induction h with
  | nil => simp [standingsAll]
  | @cons node body rest keyed plain _ _ _ _ _ ih =>
    have marker : (mk node body).node.sectionMarker? = none := plain
    rw [standingsAll, marker]
    simp only [standings, keyed, Bool.false_eq_true, if_false, Node.inSection_pub, List.mem_append,
      ih, List.mem_cons, exists_eq_or_imp]
    rfl

/-- A body has scopes inside one another, the outermost first. -/
def Opens : List Scope → List Outline → Prop
  | [], _ => True
  | s :: around, os => ∃ o ∈ os, o.node.scope? = some s ∧ Opens around o.body

/-- The scopes around what normal statements declare are there. -/
theorem Normal.opens : ∀ {around : List Scope} {os : List Outline} {node : Node},
    Normal os → { around, node } ∈ standingsAll .pub os → Opens around os
  | [], _, _, _, _ => trivial
  | s :: around, os, node, normal, member => by
    obtain ⟨o, stated, declares⟩ := normal.mem_standingsAll.1 member
    rcases Node.mem_stands.1 declares with own | ⟨t, opens, ⟨inner, node'⟩, deeper, eq⟩
    · cases own
    · obtain ⟨rfl, rfl⟩ := List.cons.inj (congrArg Standing.around eq)
      exact ⟨o, stated, opens, Normal.opens (normal.of_mem stated).2.2 deeper⟩

end Outline

namespace Tree

/-- The declarations of a tree. -/
def standings (t : Tree) : List Standing :=
  Outline.standingsAll .pub (t.outline root).body

theorem map_located_standings (t : Tree) : t.standings.map Standing.located = t.declarations :=
  Outline.map_located_standingsAll _ _

/-- The tree has scopes inside one another, the outermost at the top. -/
def Opens (t : Tree) (around : List Scope) : Prop :=
  Outline.Opens around (t.outline root).body

end Tree

end InterfaceFile
