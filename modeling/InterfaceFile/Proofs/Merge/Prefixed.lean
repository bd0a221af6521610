import InterfaceFile.Proofs.Merge.Merged
import InterfaceFile.Proofs.Merge.Survivors
import InterfaceFile.Proofs.Reader.Locations

/-!
# Visibilities that are written and visibilities of sections

A method or an attribute of a tree that is read has the visibility that is written where its location
begins. A merge gives it the visibility of its section if it is public, and it is public in the tree both
where nothing is written and where `public` is.
-/

namespace InterfaceFile

open Located (declaredAt occurrences)

/-! ## The text at a place -/

/-- The rest of a text from a place on. The text begins at `p`. -/
def textAt (place : Place) (p : Position) : List Char → List Char
  | [] => []
  | c :: cs => if p.place = place then c :: cs else textAt place (p.step c) cs

theorem textAt_after (p : Position) (front rest : List Char) :
    textAt (p.after front).place p (front ++ rest) = rest := by
  induction front generalizing p with
  | nil => cases rest <;> simp [textAt]
  | cons c front ih =>
    rw [List.cons_append, textAt, if_neg (p.place_after_cons_ne c front).symm]
    exact ih (p.step c)

/-- The visibility that is written where a node of a tree read from `source` begins. -/
def Node.written? (source : String) (n : Node) : Option Visibility :=
  n.loc.bind fun l => visibilityWord? (textAt l.start {} source.toList)

/-- A node that stands in the source has the visibility that is written there, or it is public. -/
theorem Node.Spans.visibility_eq {file : Option String} {source : String} {s e : Cursor} {n : Node}
    (h : n.Spans s e) (reached : (Cursor.ofText file source.toList).Reaches s) :
    ∀ v ∈ n.visibility?, v = (n.written? source).getD .pub := by
  obtain ⟨front, whole, start⟩ := reached.front
  have text : textAt s.pos.place {} source.toList = s.rest := by
    rw [whole, start]
    exact textAt_after {} front s.rest
  rw [Node.written?, h.loc, Option.bind_some, text]
  exact h.visibility

/-! ## Visibilities that are changed -/

namespace Node

theorem visibility?_stripped (n : Node) : n.stripped.visibility? = n.visibility? := by
  rw [stripped, visibility?, visibility?]
  cases n.decl <;> rfl

/-- A section gives its visibility to what is public. -/
theorem visibility?_inSection (level : Visibility) (n : Node) :
    (n.inSection level).visibility? = n.visibility?.map fun v => if v = .pub then level else v := by
  obtain ⟨decl, comments, loc⟩ := n
  cases decl with
  | method m =>
    by_cases own : m.visibility = .pub <;> simp [inSection, visibility?, Declaration.visibility?, own]
  | attr a =>
    by_cases own : a.visibility = .pub <;> simp [inSection, visibility?, Declaration.visibility?, own]
  | _ => rfl

theorem exists_key?_of_visibility {n : Node} {v : Visibility} (visible : n.visibility? = some v) :
    ∃ key, n.key? = some key := by
  rw [visibility?] at visible
  rw [key?]
  cases hd : n.decl with
  | method m => exact ⟨_, rfl⟩
  | attr a => exact ⟨_, rfl⟩
  | _ =>
    rw [hd] at visible
    cases visible

theorem scope?_eq_none_of_visibility {n : Node} {v : Visibility} (visible : n.visibility? = some v) :
    n.scope? = none := by
  rw [visibility?] at visible
  rw [scope?]
  cases hd : n.decl with
  | scope s =>
    rw [hd] at visible
    cases visible
  | _ => rfl

end Node

/-! ## Declarations as they are written -/

/-- A declaration as it is written, with the names of the scopes around it and the visibility of the
    section that it stands in. -/
structure Sectioned where
  path : List String
  level : Visibility
  node : Node

namespace Sectioned

/-- The declaration seen from outside the scope that it stands in. -/
def inside (name : String) (d : Sectioned) : Sectioned :=
  { d with path := name :: d.path }

/-- The declaration with the visibility that holds where it stands. -/
def located (d : Sectioned) : Located where
  path := d.path
  node := d.node.inSection d.level

end Sectioned

namespace Outline

mutual

/-- The declarations of a statement that stands in a section with the given visibility. -/
def sectioned (level : Visibility) : Outline → List Sectioned
  | mk node body =>
    if node.isBlank then [] else { path := [], level, node } :: match node.scope? with
      | some s => (sectionedAll .pub body).map (Sectioned.inside s.name)
      | none => []

/-- The declarations of a body from a section with the given visibility on. -/
def sectionedAll (level : Visibility) : List Outline → List Sectioned
  | [] => []
  | o :: rest => match o.node.sectionMarker? with
    | some level => sectionedAll level rest
    | none => o.sectioned level ++ sectionedAll level rest

end

mutual

theorem map_located_sectioned : ∀ (o : Outline) (level : Visibility),
    (o.sectioned level).map Sectioned.located = o.declarations level
  | mk node body, level => by
    have deeper := map_located_sectionedAll body .pub
    rw [sectioned, declarations]
    split
    · rfl
    · rw [Node.declares, Node.scope?_inSection, List.map_cons, ← deeper]
      cases node.scope? with
      | none => rfl
      | some s =>
        simp only [List.map_map]
        rfl

/-- With the visibilities of their sections these are the declarations of the statements. -/
theorem map_located_sectionedAll : ∀ (os : List Outline) (level : Visibility),
    (sectionedAll level os).map Sectioned.located = declarationsAll level os
  | [], _ => rfl
  | o :: rest, level => by
    rw [sectionedAll, declarationsAll]
    cases o.node.sectionMarker? with
    | some next => exact map_located_sectionedAll rest next
    | none =>
      simp only [List.map_append]
      rw [map_located_sectioned o level, map_located_sectionedAll rest level]

end

variable {origin b c : Cursor}

mutual

theorem Between.spans_sectioned : ∀ {o : Outline} {b c : Cursor} {level : Visibility}, o.Between b c →
    origin.Reaches b → ∀ d ∈ o.sectioned level, ∃ s e, origin.Reaches s ∧ d.node.Spans s e
  | mk node body, b, c, level, ⟨s, e, before, spans, within, _⟩, reached, d, member => by
    have start := reached.trans before
    rw [sectioned] at member
    split at member
    · cases member
    · rcases List.mem_cons.1 member with rfl | deeper
      · exact ⟨s, e, start, spans⟩
      · split at deeper
        · obtain ⟨d, given, rfl⟩ := List.mem_map.1 deeper
          exact BetweenAll.spans_sectionedAll within start d given
        · cases deeper

/-- What is declared stands where the statements do. -/
theorem BetweenAll.spans_sectionedAll : ∀ {os : List Outline} {b c : Cursor} {level : Visibility},
    BetweenAll b c os → origin.Reaches b → ∀ d ∈ sectionedAll level os,
      ∃ s e, origin.Reaches s ∧ d.node.Spans s e
  | [], _, _, _, _, _, _, member => by cases member
  | o :: rest, b, c, level, ⟨m, one, others⟩, reached, d, member => by
    have later := reached.trans one.reaches
    rw [sectionedAll] at member
    split at member
    · exact BetweenAll.spans_sectionedAll others later d member
    · rcases List.mem_append.1 member with here | further
      · exact Between.spans_sectioned one reached d here
      · exact BetweenAll.spans_sectionedAll others later d further

end

end Outline

namespace Tree

/-- The declarations of a tree as they are written. -/
def sectioned (t : Tree) : List Sectioned :=
  Outline.sectionedAll .pub (t.outline root).body

theorem map_located_sectioned (t : Tree) : t.sectioned.map Sectioned.located = t.declarations :=
  Outline.map_located_sectionedAll _ _

/-- In a tree that is read, a declaration has the visibility that is written, or it is public. -/
theorem visibility_of_parse {source : String} {file : Option String} {t : Tree}
    (read : parse source file = .ok t) :
    ∀ d ∈ t.sectioned, ∀ v ∈ d.node.visibility?, v = (d.node.written? source).getD .pub := by
  intro d member
  obtain ⟨c, run⟩ := Reader.run_eq_ok.1 read
  obtain ⟨-, level, body, rfl, placed⟩ := Reader.points_file.result t c run
  rw [sectioned, outline_ofOutlines] at member
  obtain ⟨s, e, reached, spans⟩ := placed.spans_sectionedAll (.refl _) d member
  exact spans.visibility_eq reached

/-- A merge of one tree without conflicts has every declaration once, with the visibility that holds
    where it stands. -/
theorem visibility_merge {keep : Keep} {t : Tree} (agree : (merge keep [t]).2 = []) {d : Sectioned}
    (member : d ∈ t.sectioned) {v : Visibility} (visible : d.node.visibility? = some v) {key : Key}
    (named : d.node.key? = some key) :
    ∃ n, occurrences d.path key (merge keep [t]).1.declarations = [n] ∧
      n.visibility? = some (if v = .pub then d.level else v) := by
  have given : d.node.inSection d.level ∈ declaredAt d.path ([t].flatMap declarations) := by
    rw [Located.mem_declaredAt, List.flatMap_singleton, ← map_located_sectioned]
    exact List.mem_map_of_mem member
  obtain ⟨n, inside, key, covers⟩ := (unions_merge agree d.path).covered given
  rw [Node.key?_inSection, named] at key
  refine ⟨n, Located.occurrences_eq_singleton (normal_merge keep [t])
    (List.mem_filter.2 ⟨inside, by simp [key]⟩), ?_⟩
  have leaf : (d.node.inSection d.level).scope? = none := by
    rw [Node.scope?_inSection]
    exact Node.scope?_eq_none_of_visibility visible
  rw [← Node.visibility?_stripped, covers.leaf leaf, Node.visibility?_stripped,
    Node.visibility?_inSection, visible]
  rfl

theorem exists_of_parse {source : String} {test : Tree → Bool}
    (passes : (parse source none).toOption.any test = true) :
    ∃ t, parse source none = .ok t ∧ test t = true := by
  cases read : parse source none with
  | error e =>
    rw [read] at passes
    cases passes
  | ok t =>
    rw [read] at passes
    exact ⟨t, rfl, passes⟩

end Tree

/-- When a tree that was read is merged by itself without conflicts, every method and every attribute is
    there once. Where `protected` or `private` is written before it, it has that, in whatever section it
    stands. Where `public` or nothing is written, it has the visibility of its section. -/
theorem written_visibility_beats_section_unless_public {source : String} {file : Option String} {t : Tree}
    (read : Tree.parse source file = .ok t) {keep : Keep} (agree : (Tree.merge keep [t]).2 = []) :
    ∀ d ∈ t.sectioned, ∀ v, d.node.visibility? = some v →
      v = (d.node.written? source).getD .pub ∧
      ∃ key n, d.node.key? = some key ∧
        occurrences d.path key (Tree.merge keep [t]).1.declarations = [n] ∧
        (∀ u, d.node.written? source = some u → u ≠ .pub → n.visibility? = some u) ∧
        ((∀ u ∈ d.node.written? source, u = .pub) → n.visibility? = some d.level) := by
  intro d member v visible
  have own := Tree.visibility_of_parse read d member v visible
  obtain ⟨key, named⟩ := Node.exists_key?_of_visibility visible
  obtain ⟨n, once, shown⟩ := Tree.visibility_merge agree member visible named
  refine ⟨own, key, n, named, once, fun u stated beats => ?_, fun silent => ?_⟩
  · rw [stated, Option.getD_some] at own
    rw [shown, own, if_neg beats]
  · have plain : v = .pub := by
      rw [own]
      cases stated : d.node.written? source with
      | none => rfl
      | some u => exact silent u stated
    rw [shown, if_pos plain]

/-- A protected method in a private section. -/
def protectedInPrivateSection : String :=
  "class A\n  private\n  protected def a; end\nend\n"

theorem written_visibility_beats_section_unless_public_protectedInPrivateSection :
    ∃ t, Tree.parse protectedInPrivateSection none = .ok t ∧ (Tree.merge .neither [t]).2 = [] ∧
      ∃ n, occurrences ["A"] (.method "a" false) (Tree.merge .neither [t]).1.declarations = [n] ∧
        n.visibility? = some .prot := by
  have passes : (Tree.parse protectedInPrivateSection none).toOption.any (fun t =>
      (Tree.merge .neither [t]).2 = [] && t.sectioned.any fun d =>
        d.path = ["A"] && d.node.key? = some (.method "a" false) && d.node.visibility? = some .prot &&
          d.node.written? protectedInPrivateSection = some .prot) = true := by
    decide +kernel
  obtain ⟨t, read, passed⟩ := Tree.exists_of_parse passes
  simp only [Bool.and_eq_true, decide_eq_true_eq, List.any_eq_true] at passed
  obtain ⟨agree, d, member, ⟨⟨path, key⟩, visible⟩, stated⟩ := passed
  obtain ⟨-, key', n, named, once, wins, -⟩ :=
    written_visibility_beats_section_unless_public read agree d member _ visible
  obtain rfl := Option.some.inj (key.symm.trans named)
  rw [path] at once
  exact ⟨t, read, agree, n, once, wins _ stated (by decide)⟩

/-- A public method in a private section. -/
def publicInPrivateSection : String :=
  "class A\n  private\n  public def a; end\nend\n"

/-- The section beats the `public` that is written before the method. -/
theorem section_beats_written_public :
    ∃ t, Tree.parse publicInPrivateSection none = .ok t ∧ ∀ keep, (Tree.merge keep [t]).2 = [] ∧
      (∃ d ∈ t.sectioned, d.path = ["A"] ∧ d.node.key? = some (.method "a" false) ∧
        d.node.written? publicInPrivateSection = some .pub) ∧
      (occurrences ["A"] (.method "a" false) (Tree.merge keep [t]).1.declarations).map Node.visibility? =
        [some .priv] := by
  have passes : (Tree.parse publicInPrivateSection none).toOption.any (fun t =>
      [Keep.left, .right, .neither].all fun keep => (Tree.merge keep [t]).2 = [] &&
        (t.sectioned.any fun d => d.path = ["A"] && d.node.key? = some (.method "a" false) &&
          d.node.written? publicInPrivateSection = some .pub) &&
        (occurrences ["A"] (.method "a" false) (Tree.merge keep [t]).1.declarations).map
          Node.visibility? = [some .priv]) = true := by
    decide +kernel
  obtain ⟨t, read, passed⟩ := Tree.exists_of_parse passes
  refine ⟨t, read, fun keep => ?_⟩
  have every := List.all_eq_true.1 passed keep (by cases keep <;> simp)
  simpa [and_assoc] using every

end InterfaceFile
