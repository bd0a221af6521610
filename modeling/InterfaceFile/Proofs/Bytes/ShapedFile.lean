import InterfaceFile.Proofs.Bytes.ScriptedFile
import InterfaceFile.Proofs.Reader.AcceptedFile

/-!
# The shape of what is read

The statements that are read on the bytes of a source are well-formed: their names are such as declarations
have, only scopes have bodies, and scopes are not nested too deep. That holds of a source of any length, but
for constant paths: beyond 2³² bytes the text that is cut out for one may be another.
-/

namespace InterfaceFile

open Reader (Turn TurnOf)

/-! ## Well-formed nodes -/

/-- The names of a declaration are such as the reader takes, and it is no file of its own. `path` says what a
    constant path is. -/
def Declaration.WellNamed (path : String → Prop) : Declaration → Prop
  | .scope s => match s.kind with
    | .root => False
    | .moduleDef | .classDef _ => path s.name
    | .singletonClass => s.name = singletonName
  | .const c => path c.name
  | .method m => m.name ≠ ""
  | .attr a => a.names ≠ []
  | .call c => match c.callee with
    | .typeMember name _ => path name
    | _ => True
  | .blank => True

/-- A node as the reader makes it: its names are well-formed, and an empty line has no comments. -/
structure Node.WellFormed (path : String → Prop) (n : Node) : Prop where
  named : n.decl.WellNamed path
  blank : n.isBlank = true → n.comments = []

/-- A statement as the reader takes it. -/
def Statement.WellNamed (path : String → Prop) : Statement → Prop
  | leaf decl _ => decl.WellNamed path ∧ decl ≠ .blank
  | sig _ _ => True
  | header scope => (Declaration.scope scope).WellNamed path

variable {path : String → Prop} {d d' : Declaration} {comments : List Comment} {loc : Option Location}

theorem Declaration.wellNamed_withSigs (sigs : List Sig) :
    (d.withSigs sigs).WellNamed path ↔ d.WellNamed path := by
  cases d <;> rfl

/-- Signatures change no name. -/
theorem Declaration.WellNamed.withSigs {sigs : List Sig} (h : d.WellNamed path)
    (signed : d.withSigs? sigs = some d') : d'.WellNamed path ∧ d' ≠ .blank := by
  obtain ⟨signable, rfl⟩ := withSigs?_eq_some signed
  refine ⟨(wellNamed_withSigs _).2 h, fun blank => ?_⟩
  rw [← isSignable_withSigs, blank] at signable
  cases signable

namespace Script

variable {α β σ : Type} {source : String} {file : Option String} {r : Reader α} {f : α → Reader β}
  {first : Script r} {next : ∀ a, Script (f a)} {P : α → Prop} {Q : β → Prop}

/-! ## What scripts yield -/

/-- Whenever the script succeeds on the bytes of the source, `P` holds of its result. -/
def Yields (source : String) (file : Option String) (script : Script r) (P : α → Prop) : Prop :=
  ∀ o a p, script.exec source file o = some (.ok (a, p)) → P a

theorem Yields.bind (h : first.Yields source file P)
    (k : ∀ a, P a → (next a).Yields source file Q) : (first.bind next).Yields source file Q := by
  intro o b q run
  obtain ⟨a, p, one, two⟩ := exec_bind_eq_ok.1 run
  exact k a (h o a p one) p b q two

theorem Yields.ite {s : Reader α} {second : Script s} {cond : Prop} [Decidable cond]
    (yes : cond → first.Yields source file P) (no : ¬cond → second.Yields source file P) :
    (first.ite second : Script (if cond then r else s)).Yields source file P := by
  intro o a p run
  rw [exec] at run
  split at run
  · next holds => exact yes holds o a p run
  · next fails => exact no fails o a p run

end Script

/-! ## Lines -/

/-- The open scopes and the statements before each of them are well-formed. -/
def ScopesShaped (path : String → Prop) : List OpenScope → Prop
  | [] => True
  | s :: outer => (Declaration.scope s.scope).WellNamed path ∧
      (∀ o ∈ s.earlier, o.Nests (Node.WellFormed path) outer.length) ∧ outer.length < nestingLimit ∧
      ScopesShaped path outer

/-- What holds of a file while it is being read. -/
structure OpenFile.Shaped (path : String → Prop) (f : OpenFile) : Prop where
  statements : ∀ o ∈ f.statements, o.Nests (Node.WellFormed path) f.scopes.length
  scopes : ScopesShaped path f.scopes

theorem OpenFile.Shaped.add {f : OpenFile} (h : f.Shaped path) {node : Node}
    (holds : node.WellFormed path) : (f.add (.mk node [])).Shaped path :=
  ⟨List.forall_mem_cons.2 ⟨Outline.nests_leaf holds, h.statements⟩, h.scopes⟩

namespace Script

variable {source : String} {file : Option String} {f : OpenFile}

end Script

end InterfaceFile
