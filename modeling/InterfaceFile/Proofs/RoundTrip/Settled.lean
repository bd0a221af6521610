import InterfaceFile.Proofs.RoundTrip.Reprint

/-!
# Text that fits where it is printed

The reader takes raw text in more places than the printer writes it. Arguments in parentheses run up
to a comma, but most calls are printed without parentheses, where more characters end an argument. A
statement fits if each of its texts can stand where it is printed with the default options. If it
fits, then its settled form is printable and has the same text: comments of parameters that are not
printed are gone, and a call that looks like a helper or a struct field is one.
-/

namespace InterfaceFile

/-! ## What fits -/

/-- The arguments can stand where they are printed, and the first one of a visibility marker is not
    taken for a declaration. -/
def Call.Fits (c : Call) : Prop :=
  ArgsFit (Call.parenthesized {} c.callee) c.args ∧
    ∀ level, c.callee = .visibility level →
      ∀ a ∈ c.args.head?, beginsDeclaration (leadingWord a) = false

instance (c : Call) : Decidable c.Fits :=
  match h : c.callee with
  | .visibility level => decidable_of_iff (ArgsFit (Call.parenthesized {} c.callee) c.args ∧
      ∀ a ∈ c.args.head?, beginsDeclaration (leadingWord a) = false) (by simp [Call.Fits, h])
  | .mixin _ | .helper _ | .mixesInClassMethods | .requiresAncestor | .typeMember _ _
  | .structField _ | .other _ =>
    decidable_of_iff (ArgsFit (Call.parenthesized {} c.callee) c.args) (by simp [Call.Fits, h])

/-- The names can stand without parentheses around them. -/
def Attribute.Fits (a : Attribute) : Prop :=
  ∀ name ∈ a.names, Clean endsArgument (":" ++ name)

instance (a : Attribute) : Decidable a.Fits :=
  inferInstanceAs (Decidable (∀ name ∈ a.names, Clean endsArgument (":" ++ name)))

/-- No default value is empty. -/
def Method.Fits (m : Method) : Prop :=
  ∀ p ∈ m.params, p.shape ≠ .keywordOptional ""

instance (m : Method) : Decidable m.Fits :=
  inferInstanceAs (Decidable (∀ p ∈ m.params, p.shape ≠ .keywordOptional ""))

/-- The value is not taken for a type member. -/
def Constant.Fits (c : Constant) : Prop :=
  ∀ value ∈ c.value, leadingWord value ≠ "type_member" ∧ leadingWord value ≠ "type_template"

instance (c : Constant) : Decidable c.Fits :=
  inferInstanceAs (Decidable (∀ value ∈ c.value, _ ∧ _))

def Declaration.Fits : Declaration → Prop
  | .const c => c.Fits
  | .method m => m.Fits
  | .attr a => a.Fits
  | .call c => c.Fits
  | .scope _ | .blank => True

instance (d : Declaration) : Decidable d.Fits :=
  match d with
  | .const c => inferInstanceAs (Decidable c.Fits)
  | .method m => inferInstanceAs (Decidable m.Fits)
  | .attr a => inferInstanceAs (Decidable a.Fits)
  | .call c => inferInstanceAs (Decidable c.Fits)
  | .scope _ | .blank => inferInstanceAs (Decidable True)

namespace Outline

mutual

/-- Does a statement fit, with all that stands inside it? -/
def fits : Outline → Bool
  | mk node body => decide node.decl.Fits && fitsAll body

/-- Do all statements of a body fit? -/
def fitsAll : List Outline → Bool
  | [] => true
  | s :: rest => s.fits && fitsAll rest

end

end Outline

/-- Every text of the tree can stand where it is printed, and no comment at the start is taken for
    the level of the file. -/
def Tree.Fits (t : Tree) : Prop :=
  Outline.fitsAll (t.outline root).body = true ∧
    (t.strictness = none → beginsWithHeader (t.outline root).body = false)

instance (t : Tree) : Decidable t.Fits :=
  inferInstanceAs (Decidable (_ ∧ (_ → _)))

/-! ## Settled forms -/

/-- The signature without the comments of its parameters, if they are not printed. -/
def Sig.settled (s : Sig) : Sig :=
  if s.hasParamComments then s else s.stripped

/-- What is called, as the printed call is read: a bare `name!` is a helper, and a struct field is
    one if a symbol follows. -/
def Callee.settled (args : List String) (block : Option String) : Callee → Callee
  | .other name =>
    if name.toList.dropWhile isWordChar = ['!'] ∧ args = [] ∧ block = none then
      .helper (leadingWord name)
    else if args.head?.any fun a => a.toList.head? = some ':' then
      if name = "const" then .structField .const
      else if name = "prop" then .structField .prop
      else .other name
    else .other name
  | callee => callee

def Call.settled (c : Call) : Call :=
  { c with callee := c.callee.settled c.args c.block }

def Method.settled (m : Method) : Method :=
  { m with sigs := m.sigs.map Sig.settled }

def Attribute.settled (a : Attribute) : Attribute :=
  { a with sigs := a.sigs.map Sig.settled }

def Declaration.settled : Declaration → Declaration
  | .method m => .method m.settled
  | .attr a => .attr a.settled
  | .call c => .call c.settled
  | decl => decl

def Node.settled (n : Node) : Node :=
  { n with decl := n.decl.settled }

mutual

/-- The settled form of a statement and of all that stands inside it. -/
def Outline.settled : Outline → Outline
  | .mk node body => .mk node.settled (Outline.settledAll body)

/-- The settled forms of statements. -/
def Outline.settledAll : List Outline → List Outline
  | [] => []
  | o :: rest => o.settled :: Outline.settledAll rest

end

/-! ## The settled form has the same text -/

theorem Sig.chainTexts_stripped (s : Sig) : s.stripped.chainTexts = s.chainTexts := by
  have renders : ∀ ps : List SigParam,
      (ps.map SigParam.stripped).map SigParam.render = ps.map SigParam.render := by
    intro ps
    rw [List.map_map]
    rfl
  have types : s.stripped.typeParametersText? = s.typeParametersText? := by
    rw [typeParametersText?, typeParametersText?, stripped, flatMap_typeNames_map]
  have trailer : s.stripped.trailerText? = s.trailerText? := trailerText?_map s
  have params : s.stripped.allParams? = s.allParams?.map (List.map SigParam.stripped) :=
    allParams?_map s
  rw [chainTexts, chainTexts, types, trailer, params, Option.map_map]
  simp only [Function.comp_def, renders]

theorem Sig.hasParamComments_stripped (s : Sig) : s.stripped.hasParamComments = false := by
  rw [hasParamComments_eq, stripped, filterMap_params?_map, List.head?_map]
  cases (s.ops.filterMap SigOp.params?).head? with
  | none => rfl
  | some ps => simp [SigParam.stripped]

/-- Comments that are not printed can be left out. -/
theorem Sig.doc_settled (s : Sig) (depth : Nat) : s.settled.doc {} depth = s.doc {} depth := by
  rw [settled]
  split
  · rfl
  · next silent =>
    have line : s.onOneLine {} depth = true := by simp [onOneLine, silent]
    have line' : s.stripped.onOneLine {} depth = true := by
      simp [onOneLine, s.hasParamComments_stripped]
    rw [doc, doc, line, line', chainText, chainText, s.chainTexts_stripped]
    rfl

theorem Call.render_settled (c : Call) : c.settled.render {} = c.render {} := by
  obtain ⟨callee, args, block⟩ := c
  cases callee with
  | other name =>
    rw [settled, Callee.settled]
    split
    · next helper =>
      have whole : leadingWord name ++ "!" = name := by
        apply String.toList_injective
        rw [String.toList_append, leadingWord, String.toList_ofList]
        show _ ++ ['!'] = _
        rw [← helper.1, List.takeWhile_append_dropWhile]
      rw [render, render, Callee.word, whole]
      rfl
    · split
      · split
        · next same => rw [same]; rfl
        · split
          · next same => rw [same]; rfl
          · rfl
      · rfl
  | _ => rfl

theorem Node.printsAs_settled (n : Node) : n.PrintsAs {} n.settled := by
  refine ⟨rfl, ?_, fun depth => ?_⟩
  · obtain ⟨decl, comments, loc⟩ := n
    cases decl <;> rfl
  · obtain ⟨decl, comments, loc⟩ := n
    cases decl with
    | method m =>
      show PrintOptions.sigDocs {} depth (m.sigs.map Sig.settled) ++ _ = _
      rw [sigDocs_map fun s _ => s.doc_settled depth]
      rfl
    | attr a =>
      show PrintOptions.sigDocs {} depth (a.sigs.map Sig.settled) ++ _ = _
      rw [sigDocs_map fun s _ => s.doc_settled depth]
      rfl
    | call c => exact congrArg (fun text => [Doc.text text]) c.render_settled
    | _ => rfl

mutual

theorem statementDoc_settled : ∀ (os : Outline) (depth : Nat),
    PrintOptions.statementDoc {} depth os.settled = PrintOptions.statementDoc {} depth os
  | .mk node body, depth => by
    rw [Outline.settled]
    refine statementDoc_congr node.printsAs_settled ?_ (bodyDocs_settled body) depth
    cases body <;> rfl

theorem bodyDocs_settled : ∀ (os : List Outline) (depth : Nat),
    PrintOptions.bodyDocs {} depth (Outline.settledAll os) = PrintOptions.bodyDocs {} depth os
  | [], _ => rfl
  | first :: os, depth => by
    rw [Outline.settledAll, PrintOptions.bodyDocs, statementDoc_settled first,
      bodyDocs_settled os, PrintOptions.bodyDocs]

end

end InterfaceFile
