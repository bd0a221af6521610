import InterfaceFile.Proofs.RoundTrip.ReadFile
import InterfaceFile.Proofs.Spelling.TrackedStatement
import Mathlib.Data.Option.Basic

/-!
# Files in two spellings

Two files are read side by side. What waits for a declaration is the same in both, and so are the
statements of every open scope; at the top of the second file there may be statements before them. One
part of the file after the other keeps it so.
-/

namespace InterfaceFile

namespace Declaration

variable (ss : List Sig) (d : Declaration)

theorem withSigs?_unlocated :
    (d.withSigs? ss).map unlocated = d.unlocated.withSigs? (ss.map Sig.unlocated) := by
  cases d <;> simp [withSigs?, unlocated, Method.unlocated, Attribute.unlocated]

theorem withSigs?_mapTexts (f : String → String) :
    (d.withSigs? ss).map (mapTexts f) = (d.mapTexts f).withSigs? (ss.map (Sig.mapTexts f)) := by
  cases d <;> simp [withSigs?, mapTexts, Method.mapTexts, Attribute.mapTexts]

end Declaration

namespace Respelling

variable {m : Respelling} {base : List Outline}

/-- What a node of the second file says in the spelling of the first one, locations aside. -/
def said (m : Respelling) (n : Node) : Node :=
  (n.mapTexts m.undo).unlocated

/-- The statements of the two files are the same. -/
def SameStatements (m : Respelling) (os os' : List Outline) : Prop :=
  os.map (Outline.mapNodes Node.unlocated) = os'.map (Outline.mapNodes m.said)

theorem sameStatements_nil : m.SameStatements [] [] :=
  rfl

theorem SameStatements.cons {node node' : Node} {body body' os os' : List Outline}
    (statement : node.unlocated = m.said node') (inside : m.SameStatements body body')
    (rest : m.SameStatements os os') :
    m.SameStatements (.mk node body :: os) (.mk node' body' :: os') := by
  rw [SameStatements, ← Outline.mapNodesAll_eq, ← Outline.mapNodesAll_eq] at inside
  rw [SameStatements, List.map_cons, List.map_cons, Outline.mapNodes, Outline.mapNodes, statement,
    inside, rest]

theorem SameStatements.reverse {os os' : List Outline} (h : m.SameStatements os os') :
    m.SameStatements os.reverse os'.reverse := by
  rw [SameStatements, List.map_reverse, List.map_reverse, h]

/-- The open scopes of the two files, with the statements of the innermost one, latest first. The second
    file begins with the statements `base`. -/
inductive SameNesting (m : Respelling) (base : List Outline) :
    List Outline → List OpenScope → List Outline → List OpenScope → Prop
  | top {os os' : List Outline} (statements : m.SameStatements os os') :
      SameNesting m base os [] (os' ++ base) []
  | inside {os os' : List Outline} {s s' : OpenScope} {outer outer' : List OpenScope}
      (statements : m.SameStatements os os') (scope : s.scope = s'.scope.mapTexts m.undo)
      (comments : s.comments.map Comment.unlocated = s'.comments.map Comment.unlocated)
      (around : SameNesting m base s.earlier outer s'.earlier outer') :
      SameNesting m base os (s :: outer) os' (s' :: outer')

/-- The two open files are the same, up to the statements that the second one begins with. -/
structure SameFile (m : Respelling) (base : List Outline) (f f' : OpenFile) : Prop where
  remarks : Reader.SameRemarks f.remarks f'.remarks
  sigs : List.Forall₂ (fun s s' => m.SameSig s.1 s'.1) f.sigs f'.sigs
  nesting : m.SameNesting base f.statements f.scopes f'.statements f'.scopes

theorem sameFile_start (m : Respelling) (base : List Outline) :
    m.SameFile base {} { statements := base } :=
  ⟨rfl, .nil, .top sameStatements_nil⟩

theorem SameNesting.add {node node' : Node} {body body' os os' : List Outline}
    {scopes scopes' : List OpenScope} (statement : node.unlocated = m.said node')
    (within : m.SameStatements body body') (h : m.SameNesting base os scopes os' scopes') :
    m.SameNesting base (.mk node body :: os) scopes (.mk node' body' :: os') scopes' := by
  cases h with
  | top statements => exact .top (.cons statement within statements)
  | inside statements scope comments around =>
    exact .inside (.cons statement within statements) scope comments around

theorem SameNesting.depth {os os' : List Outline} {scopes scopes' : List OpenScope}
    (h : m.SameNesting base os scopes os' scopes') : scopes'.length = scopes.length := by
  induction h with
  | top => rfl
  | inside _ _ _ _ ih => rw [List.length_cons, List.length_cons, ih]

namespace SameFile

variable {f f' : OpenFile}

theorem await (h : m.SameFile base f f') {rs rs' : List Remark} (same : Reader.SameRemarks rs rs') :
    m.SameFile base (f.await rs) (f'.await rs') := by
  refine ⟨?_, h.sigs, h.nesting⟩
  rw [Reader.SameRemarks, OpenFile.await, OpenFile.await, List.map_append, List.map_append,
    List.map_reverse, List.map_reverse, same, h.remarks]

theorem waiting (h : m.SameFile base f f') :
    f.waiting.map Comment.unlocated = f'.waiting.map Comment.unlocated := by
  rw [OpenFile.waiting, OpenFile.waiting, List.map_map, List.map_map, List.map_reverse,
    List.map_reverse]
  exact congrArg List.reverse h.remarks

theorem danglingSig? (h : m.SameFile base f f') :
    f'.danglingSig? = none ↔ f.danglingSig? = none := by
  rw [OpenFile.danglingSig?, OpenFile.danglingSig?, Option.map_eq_none_iff, Option.map_eq_none_iff,
    List.getLast?_eq_none_iff, List.getLast?_eq_none_iff, ← List.length_eq_zero_iff,
    ← List.length_eq_zero_iff, h.sigs.length_eq]

theorem dangling? (h : m.SameFile base f f') : f'.dangling? = none ↔ f.dangling? = none := by
  have remarks := congrArg List.length h.remarks
  rw [List.length_map, List.length_map] at remarks
  rw [OpenFile.dangling?, OpenFile.dangling?, Option.orElse_eq_none, Option.orElse_eq_none,
    h.danglingSig?, Option.map_eq_none_iff, Option.map_eq_none_iff, List.getLast?_eq_none_iff,
    List.getLast?_eq_none_iff, ← List.length_eq_zero_iff, ← List.length_eq_zero_iff, remarks]

/-- A statement without a body is added to both files. -/
theorem add (h : m.SameFile base f f') {node node' : Node} (statement : node.unlocated = m.said node') :
    m.SameFile base (f.add (.mk node [])) (f'.add (.mk node' [])) :=
  ⟨rfl, h.sigs, h.nesting.add statement rfl⟩

end SameFile

/-- Signatures go to a declaration in both files or in neither. -/
theorem SameDeclaration.withSigs? {d d' : Declaration} (h : m.SameDeclaration d d') {ss ss' : List Sig}
    (sigs : List.Forall₂ m.SameSig ss ss') :
    (d.withSigs? ss).map Declaration.unlocated =
      (d'.withSigs? ss').map fun d' => (d'.mapTexts m.undo).unlocated := by
  have same : ss.map Sig.unlocated = (ss'.map (Sig.mapTexts m.undo)).map Sig.unlocated := by
    rw [List.map_map]
    exact map_eq_of_forall₂ sigs
  have decl : d.unlocated = (d'.mapTexts m.undo).unlocated := h
  calc
    (d.withSigs? ss).map Declaration.unlocated
      = (d'.mapTexts m.undo).unlocated.withSigs? ((ss'.map (Sig.mapTexts m.undo)).map Sig.unlocated) := by
        rw [Declaration.withSigs?_unlocated, decl, same]
    _ = ((d'.withSigs? ss').map (Declaration.mapTexts m.undo)).map Declaration.unlocated := by
        rw [Declaration.withSigs?_mapTexts, Declaration.withSigs?_unlocated]
    _ = (d'.withSigs? ss').map fun d' => (d'.mapTexts m.undo).unlocated := Option.map_map ..

theorem sameScope {s s' : Scope} (h : s = s'.mapTexts m.undo) :
    m.SameDeclaration (.scope s) (.scope s') :=
  congrArg Declaration.scope h

theorem unlocated_eq_said {d d' : Declaration} {comments comments' : List Comment}
    (decl : m.SameDeclaration d d')
    (words : comments.map Comment.unlocated = comments'.map Comment.unlocated)
    (loc loc' : Option Location) :
    Node.unlocated { decl := d, comments, loc } =
      m.said { decl := d', comments := comments', loc := loc' } := by
  have same : d.unlocated = (d'.mapTexts m.undo).unlocated := decl
  rw [Node.unlocated, said, Node.mapTexts, Node.unlocated, same, words]

/-- The files go on alike. -/
def GoesOn (m : Respelling) (base : List Outline) (f f' : OpenFile) (y y' : List Char) : Prop :=
  m.SameFile base f f' ∧ m.Follows y y'

/-- The files end alike. Only a text that is a whole ends where the other one does. -/
def EndsWith (m : Respelling) (base os os' : List Outline) (_ _ : List Char) : Prop :=
  m.more = none ∧ ∃ new, os' = base.reverse ++ new ∧ m.SameStatements os new

end Respelling

namespace Reader

variable {m : Respelling} {base : List Outline} {x x' : List Char} {f f' : OpenFile}

theorem SameRemarks.append {rs rs' qs qs' : List Remark} (h : SameRemarks rs rs')
    (k : SameRemarks qs qs') : SameRemarks (rs ++ qs) (rs' ++ qs') := by
  rw [SameRemarks, List.map_append, List.map_append, h, k]

theorem tracks_check {β : Type} {loses : Prop} {e e' : Option ReadError} (same : e' = none ↔ e = none)
    {next next' : Unit → Reader β} {Q : β → β → List Char → List Char → Prop}
    (h : Tracks m loses (next ()) (next' ()) x x' Q) :
    Tracks m loses (check e >>= next) (check e' >>= next') x x' Q := by
  cases e with
  | none =>
    rw [same.2 rfl]
    exact h
  | some e =>
    cases e' with
    | none => cases same.1 rfl
    | some e' => exact fun _ _ _ _ => .error

theorem tracks_closeFile (whole : m.more = none) (same : m.SameFile base f f') :
    Tracks m False (closeFile f) (closeFile f') x x'
      (Turned (m.GoesOn base) (m.EndsWith base)) := by
  refine tracks_check same.dangling? ?_
  obtain ⟨rs, ss, os, scopes⟩ := f
  obtain ⟨rs', ss', os', scopes'⟩ := f'
  cases same.nesting with
  | @top _ new statements =>
    exact tracks_pure (.done ⟨whole, new.reverse, List.reverse_append, statements.reverse⟩)
  | inside => exact tracks_fail _ _ _ _

theorem tracks_closeScope (start start' : Position) (same : m.SameFile base f f') (h : m.Spells x x') :
    Tracks m False (closeScope f start) (closeScope f' start') x x'
      (Turned (m.GoesOn base) (m.EndsWith base)) := by
  refine tracks_check same.dangling? (tracks_here fun _ _ => ?_)
  obtain ⟨rs, ss, os, scopes⟩ := f
  obtain ⟨rs', ss', os', scopes'⟩ := f'
  cases same.nesting with
  | top => exact tracks_fail _ _ _ _
  | @inside _ _ s s' _ _ statements scope comments around =>
    refine (tracks_finishLine h).andThen fun remark remark' _ _ ended => tracks_locate _ _ _ _
      fun _ _ => tracks_pure (.again ⟨⟨rfl, .nil, around.add ?_ statements.reverse⟩, ended.2⟩)
    refine Respelling.unlocated_eq_said (Respelling.sameScope scope) ?_ _ _
    have words : remark.toList.map (·.comment.unlocated) = remark'.toList.map (·.comment.unlocated) :=
      ended.1
    simp only [List.map_append, List.map_map, comments]
    exact congrArg _ words

theorem tracks_openScope (start start' : Position) {scope scope' : Scope}
    (header : scope = scope'.mapTexts m.undo) (same : m.SameFile base f f') (h : m.Spells x x') :
    Tracks m False (openScope f start scope) (openScope f' start' scope') x x' (m.GoesOn base) := by
  refine tracks_check same.danglingSig? ((tracks_skipSpaces h).andThen fun _ _ y y' aligned =>
    (tracks_eat rfl aligned.spells).branch (fun z z' left => ?_) ?_)
  · refine (tracks_skipSpaces left).andThen fun _ _ _ _ aligned =>
      (tracks_expectKeyword _ _ aligned.spells).andThen fun _ _ _ _ left => tracks_here fun _ _ =>
        (tracks_finishLine left).andThen fun remark remark' _ _ ended =>
          tracks_locate _ _ _ _ fun _ _ => tracks_pure ⟨same.add ?_, ended.2⟩
    exact Respelling.unlocated_eq_said (Respelling.sameScope header)
      (same.await ended.1).waiting _ _
  · refine tracks_here fun _ _ => (tracks_finishLine aligned.spells).andThen
      fun remark remark' _ _ ended => .ite (by rw [same.nesting.depth]) (fun _ => tracks_fail _ _ _ _)
        fun _ => tracks_pure ⟨⟨rfl, .nil, ?_⟩, ended.2⟩
    exact .inside Respelling.sameStatements_nil header (same.await ended.1).waiting same.nesting

theorem tracks_closeLeaf (start start' : Position) {d d' : Declaration} {rs rs' : List Remark}
    (decl : m.SameDeclaration d d') (remarks : SameRemarks rs rs') (same : m.SameFile base f f')
    (h : m.Spells x x') :
    Tracks m False (closeLeaf f start d rs) (closeLeaf f' start' d' rs') x x' (m.GoesOn base) := by
  refine tracks_here fun _ _ => (tracks_finishLine h).andThen fun remark remark' _ _ ended =>
    tracks_locate _ _ _ _ fun loc loc' => ?_
  have words := (same.await (remarks.append ended.1)).waiting
  have sigs : List.Forall₂ m.SameSig (f.sigs.reverse.map Prod.fst) (f'.sigs.reverse.map Prod.fst) :=
    List.forall₂_map_left_iff.2 (List.forall₂_map_right_iff.2 (List.rel_reverse same.sigs))
  have signed := decl.withSigs? sigs
  dsimp only
  generalize d.withSigs? (f.sigs.reverse.map Prod.fst) = o,
    d'.withSigs? (f'.sigs.reverse.map Prod.fst) = o' at signed
  cases o with
  | none =>
    cases o' with
    | some e' => cases signed
    | none =>
      exact tracks_check same.danglingSig? (tracks_pure
        ⟨same.add (Respelling.unlocated_eq_said decl words _ _), ended.2⟩)
  | some e =>
    cases o' with
    | none => cases signed
    | some e' =>
      have unsigned : m.SameFile base { f with sigs := [] } { f' with sigs := [] } :=
        ⟨same.remarks, .nil, same.nesting⟩
      exact tracks_pure ⟨unsigned.add (Respelling.unlocated_eq_said (Option.some.inj signed) words _ _),
        ended.2⟩

theorem tracks_closeStatement (start start' : Position) {s s' : Statement} (read : m.SameStatement s s')
    (same : m.SameFile base f f') (h : m.Spells x x') :
    Tracks m False (closeStatement f start s) (closeStatement f' start' s') x x' (m.GoesOn base) := by
  cases read with
  | leaf decl remarks => exact tracks_closeLeaf _ _ decl remarks same h
  | header scope => exact tracks_openScope _ _ scope same h
  | sig sig remarks =>
    refine tracks_here fun _ _ => (tracks_finishLine h).andThen fun remark remark' _ _ ended =>
      tracks_pure ⟨?_, ended.2⟩
    have awaited := same.await (remarks.append ended.1)
    exact ⟨awaited.remarks, .cons sig same.sigs, same.nesting⟩

/-- One part of a file after the other is read in step. -/
theorem tracks_fileStep (same : m.SameFile base f f') (h : m.Spells x x') :
    Tracks m False (fileStep f) (fileStep f') x x' (Turned (m.GoesOn base) (m.EndsWith base)) := by
  refine (tracks_skipSpaces h).andThen fun _ _ y y' aligned => tracks_here fun start start' =>
    (tracks_eat_newline aligned).branch (fun z z' follows => tracks_locate _ _ _ _ fun _ _ => ?_) ?_
  · exact tracks_pure (.again ⟨⟨same.remarks, same.sigs, same.nesting.add rfl rfl⟩, follows⟩)
  refine (tracks_remark? aligned).option (fun remark remark' z z' words aligned => ?_) ?_
  · have waits : m.SameFile base (f.await [remark]) (f'.await [remark']) :=
      same.await (congrArg (fun c => [c]) words)
    exact (tracks_eat_newline aligned).branch (fun _ _ follows => tracks_pure (.again ⟨waits, follows⟩))
      (tracks_pure (.again ⟨waits, .inl aligned.spells⟩))
  · refine tracks_atEnd aligned.spells (.ite .rfl (fun ended => ?_) fun _ => ?_)
    · have nothing : y = [] := List.isEmpty_iff.1 ended
      exact tracks_closeFile (nothing ▸ aligned.spells).eq_nil.2 same
    · refine (tracks_eatKeyword _ aligned.spells).branch
        (fun _ _ left => tracks_closeScope _ _ same left) ?_
      exact (tracks_statement aligned.spells).andThen fun s s' _ _ read =>
        (tracks_closeStatement _ _ read.1 same read.2).andThen fun _ _ _ _ goesOn =>
          tracks_pure (.again goesOn)

/-- Two texts that are wholes are read in step to their ends. -/
theorem tracks_fileFrom (whole : m.more = none) (same : m.SameFile base f f') (h : m.Spells x x') :
    Tracks m False (fileFrom f) (fileFrom f') x x' (m.EndsWith base) := by
  refine tracks_loop (I := m.GoesOn base) (fun g g' y y' goesOn => ?_) ⟨same, .inl h⟩
  rcases goesOn.2 with left | ⟨-, more⟩
  · exact tracks_fileStep goesOn.1 left
  · rw [whole] at more
    cases more

end Reader

end InterfaceFile
