import InterfaceFile.Merge.Key
import InterfaceFile.Tree.Outline

/-!
# What a tree declares

The declarations of a tree are the statements that are reached through scopes, without empty lines
and bare visibility markers. Each is found by the names of the scopes around it, and each has the
visibility that holds where it stands.
-/

namespace InterfaceFile

/-- A declaration with the names of the scopes around it, the outermost first. -/
structure Located where
  path : List String
  node : Node

namespace Located

/-- The declaration seen from outside the scope that it stands in. -/
def inside (name : String) (d : Located) : Located :=
  { d with path := name :: d.path }

/-- The declaration seen from inside a scope, if it stands there. -/
def within? (name : String) (d : Located) : Option Located :=
  match d.path with
  | [] => none
  | s :: path => if s = name then some { d with path } else none

@[simp]
theorem within?_inside (name s : String) (d : Located) :
    (d.inside s).within? name = if s = name then some d else none := rfl

/-- The declarations that stand in the scope with the given name, seen from inside it. -/
def below (name : String) (ds : List Located) : List Located :=
  ds.filterMap (within? name)

/-- The nodes that are declared directly inside the scopes of a path. -/
def declaredAt (path : List String) (ds : List Located) : List Node :=
  (ds.filter fun d => d.path = path).map node

@[simp]
theorem below_append (name : String) (ds es : List Located) :
    below name (ds ++ es) = below name ds ++ below name es :=
  List.filterMap_append

theorem below_map_inside (name s : String) (ds : List Located) :
    below name (ds.map (inside s)) = if s = name then ds else [] := by
  by_cases same : s = name <;> simp [below, List.filterMap_map, Function.comp_def, same]

@[simp]
theorem declaredAt_append (path : List String) (ds es : List Located) :
    declaredAt path (ds ++ es) = declaredAt path ds ++ declaredAt path es := by
  simp [declaredAt]

@[simp]
theorem declaredAt_map_inside_nil (s : String) (ds : List Located) :
    declaredAt [] (ds.map (inside s)) = [] := by
  simp [declaredAt, inside]

/-- To look further down a path is to look from inside its first scope. -/
theorem declaredAt_cons (s : String) (path : List String) (ds : List Located) :
    declaredAt (s :: path) ds = declaredAt path (below s ds) := by
  induction ds with
  | nil => rfl
  | cons d rest ih =>
    obtain ⟨here, node⟩ := d
    simp only [declaredAt, below] at ih ⊢
    cases here with
    | nil => simpa [within?, List.filterMap_cons] using ih
    | cons s' here =>
      by_cases same : s' = s
      · by_cases deeper : here = path <;>
          simpa [within?, same, deeper, List.filter_cons, List.filterMap_cons] using ih
      · simpa [within?, same, List.filterMap_cons] using ih

theorem mem_declaredAt {path : List String} {ds : List Located} {node : Node} :
    node ∈ declaredAt path ds ↔ { path, node } ∈ ds := by
  constructor
  · intro member
    obtain ⟨d, inside, rfl⟩ := List.mem_map.1 member
    obtain ⟨given, here⟩ := List.mem_filter.1 inside
    obtain rfl : d.path = path := by simpa using here
    exact given
  · intro given
    exact List.mem_map.2 ⟨_, List.mem_filter.2 ⟨given, by simp⟩, rfl⟩

theorem mem_below {s : String} {ds : List Located} {d : Located} :
    d ∈ below s ds ↔ d.inside s ∈ ds := by
  constructor
  · intro member
    obtain ⟨⟨path, node⟩, given, within⟩ := List.mem_filterMap.1 member
    cases path with
    | nil => cases within
    | cons s' path =>
      simp only [within?] at within
      split at within
      · next same =>
        obtain rfl := Option.some.inj within
        obtain rfl := same
        exact given
      · cases within
  · intro given
    exact List.mem_filterMap.2 ⟨d.inside s, given, by simp⟩

end Located

/-- The declaration of a node, with what is declared inside it if it is a scope. -/
def Node.declares (node : Node) (inner : List Located) : List Located :=
  { path := [], node } :: match node.scope? with
    | some s => inner.map (Located.inside s.name)
    | none => []

namespace Outline

mutual

/-- The declarations of a statement that stands in a section with the given visibility. -/
def declarations (level : Visibility) : Outline → List Located
  | mk node body =>
    if node.isBlank then [] else (node.inSection level).declares (declarationsAll .pub body)

/-- The declarations of a body from a section with the given visibility on. -/
def declarationsAll (level : Visibility) : List Outline → List Located
  | [] => []
  | o :: rest => match o.node.sectionMarker? with
    | some level => declarationsAll level rest
    | none => o.declarations level ++ declarationsAll level rest

end

end Outline

/-- The declarations of a tree. -/
def Tree.declarations (t : Tree) : List Located :=
  Outline.declarationsAll .pub (t.outline root).body

namespace Node

theorem key?_eq_none {n : Node} : n.key? = none ↔ n.isBlank = true := by
  rw [key?, isBlank]
  cases n.decl with
  | call c => cases named : c.declaredName? <;> simp [named]
  | _ => simp

theorem scope?_eq_some {n : Node} {s : Scope} : n.scope? = some s ↔ n.decl = .scope s := by
  rw [scope?]
  cases n.decl <;> simp

/-- Scopes are known by their names, and nothing else has a key of that kind. -/
theorem key?_eq_scope {n : Node} {name : String} :
    n.key? = some (.scope name) ↔ ∃ s, n.scope? = some s ∧ s.name = name := by
  rw [key?, scope?]
  cases n.decl with
  | call c => cases named : c.declaredName? <;> simp [named]
  | _ => simp

theorem inSection_cases (level : Visibility) (n : Node) :
    n.inSection level = n ∨ (∃ m, n.decl = .method m ∧
        n.inSection level = { n with decl := .method { m with visibility := level } }) ∨
      ∃ a, n.decl = .attr a ∧
        n.inSection level = { n with decl := .attr { a with visibility := level } } := by
  rw [inSection]
  cases hd : n.decl with
  | method m => by_cases own : m.visibility = .pub <;> simp [own]
  | attr a => by_cases own : a.visibility = .pub <;> simp [own]
  | _ => simp

@[simp]
theorem key?_inSection (level : Visibility) (n : Node) : (n.inSection level).key? = n.key? := by
  rcases n.inSection_cases level with same | ⟨m, hd, eq⟩ | ⟨a, hd, eq⟩
  · rw [same]
  · rw [eq, key?, key?, hd]
  · rw [eq, key?, key?, hd]

theorem isBlank_inSection (level : Visibility) (n : Node) :
    (n.inSection level).isBlank = n.isBlank := by
  have keys := key?_inSection level n
  rw [Bool.eq_iff_iff, ← key?_eq_none, ← key?_eq_none, keys]

@[simp]
theorem scope?_inSection (level : Visibility) (n : Node) :
    (n.inSection level).scope? = n.scope? := by
  rcases n.inSection_cases level with same | ⟨m, hd, eq⟩ | ⟨a, hd, eq⟩
  · rw [same]
  · rw [eq, scope?, scope?, hd]
  · rw [eq, scope?, scope?, hd]

@[simp]
theorem sectionMarker?_inSection (level : Visibility) (n : Node) :
    (n.inSection level).sectionMarker? = n.sectionMarker? := by
  rcases n.inSection_cases level with same | ⟨m, hd, eq⟩ | ⟨a, hd, eq⟩
  · rw [same]
  · rw [eq, sectionMarker?, sectionMarker?, hd]
  · rw [eq, sectionMarker?, sectionMarker?, hd]

/-- Outside any section a node keeps the visibility that it states. -/
@[simp]
theorem inSection_pub (n : Node) : n.inSection .pub = n := by
  obtain ⟨decl, comments, loc⟩ := n
  cases decl with
  | method m =>
    by_cases own : m.visibility = .pub
    · simp [inSection, ← own]
    · simp [inSection, own]
  | attr a =>
    by_cases own : a.visibility = .pub
    · simp [inSection, ← own]
    · simp [inSection, own]
  | _ => rfl

end Node

open Located (below declaredAt)

variable {node : Node} {inner : List Located}

/-- A node declares itself and, if it is a scope, what is declared inside it. -/
theorem Node.mem_declares {d : Located} :
    d ∈ node.declares inner ↔ d = { path := [], node } ∨
      ∃ s, node.key? = some (.scope s) ∧ ∃ d' ∈ inner, d = d'.inside s := by
  rw [Node.declares, List.mem_cons]
  cases hs : node.scope? with
  | none =>
    have unnamed : ∀ s, node.key? ≠ some (.scope s) := by
      intro s named
      obtain ⟨s', scope, -⟩ := Node.key?_eq_scope.1 named
      rw [hs] at scope
      cases scope
    simp [unnamed]
  | some s =>
    have named : node.key? = some (.scope s.name) := Node.key?_eq_scope.2 ⟨s, hs, rfl⟩
    simp [named, eq_comm]

@[simp]
theorem Located.declaredAt_declares : declaredAt [] (node.declares inner) = [node] := by
  rw [Node.declares]
  cases node.scope? with
  | none => rfl
  | some s => exact congrArg (node :: ·) (Located.declaredAt_map_inside_nil s.name inner)

theorem Located.below_declares_of_ne {s : String} (other : node.key? ≠ some (.scope s)) :
    below s (node.declares inner) = [] := by
  rw [Node.declares]
  cases hs : node.scope? with
  | none => rfl
  | some s' =>
    have different : s'.name ≠ s := fun same => other (Node.key?_eq_scope.2 ⟨s', hs, same⟩)
    show below s (inner.map (Located.inside s'.name)) = []
    rw [Located.below_map_inside, if_neg different]

theorem Located.below_declares {s : String} (key : node.key? = some (.scope s)) :
    below s (node.declares inner) = inner := by
  obtain ⟨s', hs, same⟩ := Node.key?_eq_scope.1 key
  rw [Node.declares, hs]
  show below s (inner.map (Located.inside s'.name)) = inner
  rw [Located.below_map_inside, if_pos same]

end InterfaceFile
