import InterfaceFile.Proofs.RoundTrip.ReadSignature

/-!
# The written form is printed in the same way

Documents do not show locations, nor how the lines of comments were put together, nor the order of
the operations of a signature. So a tree and what is read back from its text have the same text.
-/

namespace InterfaceFile

/-! ## Comments -/

theorem Text.lines_of_not_mem {s : String} (h : '\n' ∉ s.toList) : Text.lines s = [s] := by
  have one : ∀ cs : List Char, '\n' ∉ cs → split '\n' cs = [cs] := by
    intro cs
    induction cs with
    | nil => exact fun _ => rfl
    | cons c cs ih =>
      intro none
      have unfolded : split '\n' (c :: cs) = consPiece '\n' c (split '\n' cs) := rfl
      have other : c ≠ '\n' := fun same => none (same ▸ List.mem_cons_self)
      rw [unfolded, ih fun member => none (List.mem_cons_of_mem _ member), consPiece, if_neg other]
  rw [lines, one _ h, List.map_singleton, String.ofList_toList]

theorem commentLines_unlocated (comments : List Comment) :
    commentLines (comments.map Comment.unlocated) = commentLines comments := by
  rw [commentLines, List.flatMap_map]
  rfl

theorem commentLines_written (comments : List Comment) :
    commentLines (writtenComments comments) = commentLines comments := by
  have one : ∀ line ∈ commentLines comments, Text.lines line = [line] := by
    intro line member
    obtain ⟨c, inside, printed⟩ := List.mem_flatMap.1 member
    obtain ⟨piece, cut, rfl⟩ := List.mem_map.1 printed
    refine Text.lines_of_not_mem ?_
    rw [String.toList_ofList]
    exact Text.not_mem_of_mem_split cut
  rw [writtenComments, commentLines, List.flatMap_map]
  generalize commentLines comments = lines at one
  induction lines with
  | nil => rfl
  | cons line lines ih =>
    rw [List.flatMap_cons, ih fun l member => one l (List.mem_cons_of_mem _ member)]
    exact congrArg (· ++ lines) (one line List.mem_cons_self)

/-- A comment has a line. -/
theorem isEmpty_commentLines (comments : List Comment) :
    (commentLines comments).isEmpty = comments.isEmpty := by
  cases comments with
  | nil => rfl
  | cons c comments =>
    have lines : c.lines ≠ [] := by
      intro nil
      have count := Text.length_split '\n' c.text.toList
      rw [List.map_eq_nil_iff.1 nil] at count
      cases count
    rw [commentLines, List.flatMap_cons]
    simp [lines]

variable {o : PrintOptions}

theorem commentDocs_congr {cs cs' : List Comment} (h : commentLines cs' = commentLines cs) :
    o.commentDocs cs' = o.commentDocs cs := by
  show (commentLines cs').flatMap _ = (commentLines cs).flatMap _
  rw [h]

/-! ## Entries -/

/-- What is printed of an entry of a list. -/
def entryView (e : String × List Comment) : String × List String :=
  (e.1, commentLines e.2)

theorem entriesDocs_congr : ∀ {es es' : List (String × List Comment)},
    es'.map entryView = es.map entryView → o.entriesDocs es' = o.entriesDocs es
  | [], [], _ => rfl
  | [], _ :: _, h => by cases h
  | _ :: _, [], h => by cases h
  | e :: es, e' :: es', h => by
    obtain ⟨first, rest⟩ := List.cons_eq_cons.1 h
    have docs : ∀ text, o.entryDocs text e'.2 = o.entryDocs text e.2 := by
      intro text
      show _ :: _ :: o.trailingDocs _ (commentLines e'.2) = _ :: _ :: o.trailingDocs _ (commentLines e.2)
      have lines : commentLines e'.2 = commentLines e.2 := (Prod.ext_iff.1 first).2
      rw [lines]
    have text : e'.1 = e.1 := (Prod.ext_iff.1 first).1
    by_cases none : es = []
    · subst none
      obtain rfl : es' = [] := List.map_eq_nil_iff.1 rest
      show o.entryDocs e'.1 e'.2 = o.entryDocs e.1 e.2
      rw [docs, text]
    · have none' : es' ≠ [] := by
        rintro rfl
        exact none (List.map_eq_nil_iff.1 rest.symm)
      rw [Reader.entriesDocs_cons o e none, Reader.entriesDocs_cons o e' none', docs, text,
        entriesDocs_congr rest]

/-- Whether the entries carry comments is seen in what is printed of them. -/
theorem all_isEmpty {γ : Type} (render : γ → String) (comments : γ → List Comment) (ps : List γ) :
    (ps.all fun p => (comments p).isEmpty) =
      (ps.map fun p => entryView (render p, comments p)).all fun e => e.2.isEmpty := by
  rw [List.all_map]
  refine congrArg ps.all (funext fun p => ?_)
  exact (isEmpty_commentLines _).symm

theorem paramsDocs_congr {ps ps' : List Param}
    (h : ps'.map (fun p => entryView (p.render, p.comments)) =
      ps.map fun p => entryView (p.render, p.comments)) : o.paramsDocs ps' = o.paramsDocs ps := by
  have empty : ps'.isEmpty = ps.isEmpty := by
    cases ps <;> cases ps' <;> first | rfl | cases h
  have renders : ps'.map Param.render = ps.map Param.render := by
    have := congrArg (List.map Prod.fst) h
    rwa [List.map_map, List.map_map] at this
  have silent : (ps'.all fun p => p.comments.isEmpty) = ps.all fun p => p.comments.isEmpty := by
    rw [all_isEmpty Param.render Param.comments, h, all_isEmpty Param.render Param.comments]
  have entries : o.entriesDocs (ps'.map fun p => (p.render, p.comments)) =
      o.entriesDocs (ps.map fun p => (p.render, p.comments)) :=
    entriesDocs_congr (by rw [List.map_map, List.map_map]; exact h)
  rw [PrintOptions.paramsDocs, PrintOptions.paramsDocs, empty, renders, silent, entries]

/-! ## Signatures -/

/-- What is printed of the parameters of a signature. -/
def Sig.paramsView (s : Sig) : Option (List (String × List String)) :=
  s.allParams?.map fun ps => ps.map fun p => entryView (p.render, p.comments)

/-- The signatures differ in nothing that is printed. -/
structure Sig.PrintsAs (s s' : Sig) : Prop where
  types : s'.ops.flatMap SigOp.typeNames = s.ops.flatMap SigOp.typeNames
  params : s'.paramsView = s.paramsView
  trailer : s'.trailerText? = s.trailerText?
  noted : s'.hasParamComments = s.hasParamComments

namespace Sig.PrintsAs

variable {s s' : Sig}

theorem trans {s'' : Sig} (h : s.PrintsAs s') (h' : s'.PrintsAs s'') : s.PrintsAs s'' where
  types := h'.types.trans h.types
  params := h'.params.trans h.params
  trailer := h'.trailer.trans h.trailer
  noted := h'.noted.trans h.noted

theorem typeParametersText? (h : s.PrintsAs s') :
    s'.typeParametersText? = s.typeParametersText? := by
  rw [Sig.typeParametersText?, Sig.typeParametersText?, h.types]

/-- The parameters on one line. -/
theorem render_eq (s : Sig) : (s.allParams?.map fun entries =>
    "params(" ++ Text.join ", " (entries.map SigParam.render) ++ ")") =
      s.paramsView.map fun view => "params(" ++ Text.join ", " (view.map Prod.fst) ++ ")" := by
  rw [Sig.paramsView, Option.map_map]
  refine congrArg (s.allParams?.map ·) (funext fun ps => ?_)
  show _ = "params(" ++ Text.join ", " ((ps.map _).map Prod.fst) ++ ")"
  rw [List.map_map]
  rfl

theorem chainTexts (h : s.PrintsAs s') : s'.chainTexts = s.chainTexts := by
  simp only [Sig.chainTexts, render_eq, h.params, h.typeParametersText?, h.trailer]

theorem blockBody (h : s.PrintsAs s') : s'.blockBody o = s.blockBody o := by
  have params := h.params
  rw [Sig.paramsView, Sig.paramsView] at params
  rw [Sig.blockBody, Sig.blockBody, h.typeParametersText?, h.trailer, Sig.chainText, Sig.chainText,
    h.chainTexts]
  cases some : s.allParams? with
  | none =>
    rw [some] at params
    rw [Option.map_eq_none_iff.1 params]
  | some ps =>
    rw [some, Option.map_some] at params
    obtain ⟨ps', some', same⟩ := Option.map_eq_some_iff.1 params
    have entries : o.entriesDocs (ps'.map fun p => (p.render, p.comments)) =
        o.entriesDocs (ps.map fun p => (p.render, p.comments)) :=
      entriesDocs_congr (by rw [List.map_map, List.map_map]; exact same)
    rw [some']
    simp only [entries]

theorem doc (h : s.PrintsAs s') (depth : Nat) : s'.doc o depth = s.doc o depth := by
  rw [Sig.doc, Sig.doc, Sig.onOneLine, Sig.onOneLine, Sig.lineWidth, Sig.lineWidth, Sig.chainText,
    Sig.chainText, h.chainTexts, h.noted, h.blockBody]

end Sig.PrintsAs

namespace Sig

variable {f : SigParam → SigParam}

theorem params?_mapParams (op : SigOp) : (op.mapParams f).params? = op.params?.map (List.map f) := by
  cases op <;> rfl

theorem filterMap_params?_map (ops : List SigOp) :
    (ops.map (SigOp.mapParams f)).filterMap SigOp.params? =
      (ops.filterMap SigOp.params?).map (List.map f) := by
  rw [List.filterMap_map, List.map_filterMap]
  exact congrArg (List.filterMap · ops) (funext params?_mapParams)

/-- The texts of operations that are not about parameters. -/
theorem filterMap_pick_map {pick : SigOp → Option String}
    (other : ∀ op, pick (op.mapParams f) = pick op) (ops : List SigOp) :
    (ops.map (SigOp.mapParams f)).filterMap pick = ops.filterMap pick := by
  rw [List.filterMap_map]
  exact congrArg (List.filterMap · ops) (funext other)

theorem findSome?_params? (ops : List SigOp) :
    ops.findSome? SigOp.params? = (ops.filterMap SigOp.params?).head? :=
  List.head?_filterMap.symm

theorem hasParamComments_eq (s : Sig) : s.hasParamComments =
    !((s.ops.filterMap SigOp.params?).head?.getD []).all fun p => p.comments.isEmpty := by
  rw [hasParamComments, params?, findSome?_params?, List.not_all_eq_any_not]

theorem flatMap_typeNames_map (ops : List SigOp) :
    (ops.map (SigOp.mapParams f)).flatMap SigOp.typeNames = ops.flatMap SigOp.typeNames := by
  rw [List.flatMap_map]
  refine congrArg (List.flatMap · ops) (funext fun op => ?_)
  cases op <;> rfl

theorem trailerText?_map (s : Sig) :
    ({ ops := s.ops.map (SigOp.mapParams f) } : Sig).trailerText? = s.trailerText? := by
  rw [trailerText?, trailerText?, filterMap_pick_map, filterMap_pick_map, filterMap_pick_map]
  all_goals intro op; cases op <;> rfl

theorem allParams?_map (s : Sig) :
    ({ ops := s.ops.map (SigOp.mapParams f) } : Sig).allParams? = s.allParams?.map (List.map f) := by
  rw [allParams?, allParams?, filterMap_params?_map]
  cases s.ops.filterMap SigOp.params? with
  | nil => rfl
  | cons first rest => exact congrArg some List.map_flatten.symm

/-- A signature is printed in the same way if each of its parameters is. -/
theorem printsAs_mapParams (same : ∀ p : SigParam,
      entryView ((f p).render, (f p).comments) = entryView (p.render, p.comments)) (s : Sig) :
    s.PrintsAs { ops := s.ops.map (SigOp.mapParams f) } := by
  have views : ∀ ps : List SigParam, (ps.map f).map (fun p => entryView (p.render, p.comments)) =
      ps.map fun p => entryView (p.render, p.comments) := by
    intro ps
    rw [List.map_map]
    exact List.map_congr_left fun p _ => same p
  refine ⟨flatMap_typeNames_map s.ops, ?_, trailerText?_map s, ?_⟩
  · rw [paramsView, paramsView, allParams?_map, Option.map_map]
    exact congrArg (s.allParams?.map ·) (funext views)
  · rw [hasParamComments_eq, hasParamComments_eq, filterMap_params?_map, List.head?_map]
    cases (s.ops.filterMap SigOp.params?).head? with
    | none => rfl
    | some ps =>
      show (!(ps.map f).all _) = !ps.all _
      rw [all_isEmpty SigParam.render SigParam.comments, views,
        ← all_isEmpty SigParam.render SigParam.comments]

theorem flatMap_typeNames_inOrder (s : Sig) :
    s.inOrder.flatMap SigOp.typeNames = s.ops.flatMap SigOp.typeNames := by
  have trailer : s.trailerOps.flatMap SigOp.typeNames = [] := by
    refine List.flatMap_eq_nil_iff.2 fun op member => ?_
    obtain ⟨-, picked⟩ := Reader.mem_trailerOps member
    cases op with
    | typeParameters names => rcases picked with p | p | p <;> cases p
    | _ => rfl
  have params : s.paramsOp.flatMap SigOp.typeNames = [] := by
    rw [paramsOp]
    cases s.allParams? <;> rfl
  have types : s.typeParametersOp.flatMap SigOp.typeNames = s.ops.flatMap SigOp.typeNames := by
    rw [typeParametersOp]
    cases s.ops.flatMap SigOp.typeNames with
    | nil => rfl
    | cons name names => exact List.append_nil _
  rw [inOrder, List.flatMap_append, List.flatMap_append, types, params, trailer, List.append_nil,
    List.append_nil]

theorem filterMap_params?_inOrder (s : Sig) :
    s.inOrder.filterMap SigOp.params? = s.allParams?.toList := by
  have trailer : s.trailerOps.filterMap SigOp.params? = [] :=
    List.filterMap_eq_nil_iff.2 fun op member => Reader.params?_trailerOps member
  have types : s.typeParametersOp.filterMap SigOp.params? = [] :=
    List.filterMap_eq_nil_iff.2 fun op member => Reader.params?_typeParametersOp member
  have params : s.paramsOp.filterMap SigOp.params? = s.allParams?.toList := by
    rw [paramsOp]
    cases s.allParams? <;> rfl
  rw [inOrder, List.filterMap_append, List.filterMap_append, types, params, trailer, List.nil_append,
    List.append_nil]

/-- The last of the operations that `q` picks out is the only one that is picked out of itself. -/
theorem filter_getLast? (q : SigOp → Bool) (ops : List SigOp) :
    ((ops.filter q).getLast?.toList.filter q).getLast? = (ops.filter q).getLast? := by
  cases last : (ops.filter q).getLast? with
  | none => rfl
  | some op =>
    have holds : q op = true := (List.mem_filter.1 (List.mem_of_getLast? last)).2
    simp [holds]

theorem filter_getLast?_other {p q : SigOp → Bool} (other : ∀ op, p op = true → q op = false)
    (ops : List SigOp) : (ops.filter p).getLast?.toList.filter q = [] := by
  refine List.filter_eq_nil_iff.2 fun op member => ?_
  have holds := (List.mem_filter.1 (List.mem_of_getLast? (Option.mem_toList.1 member))).2
  simp [other op holds]

theorem filter_filter_other {p q : SigOp → Bool} (other : ∀ op, p op = true → q op = false)
    (ops : List SigOp) : (ops.filter p).filter q = [] := by
  refine List.filter_eq_nil_iff.2 fun op member => ?_
  simp [other op (List.mem_filter.1 member).2]

/-- Only the trailer has operations that `q` picks out, if it picks no names and parameters. -/
theorem filter_inOrder {q : SigOp → Bool} (types : ∀ names, q (.typeParameters names) = false)
    (params : ∀ ps, q (.params ps) = false) (s : Sig) : s.inOrder.filter q = s.trailerOps.filter q := by
  have first : s.typeParametersOp.filter q = [] := by
    rw [typeParametersOp]
    split
    · rfl
    · simp [types]
  have second : s.paramsOp.filter q = [] := by
    rw [paramsOp]
    split
    · rfl
    · simp [params]
  rw [inOrder, List.filter_append, List.filter_append, first, second]
  rfl

theorem trailerOps_inOrder (s : Sig) : ({ ops := s.inOrder } : Sig).trailerOps = s.trailerOps := by
  have disjoint : ∀ op : SigOp,
      (op.flag?.isSome = true → op.result?.isSome = false ∧ op.check?.isSome = false) ∧
        (op.result?.isSome = true → op.flag?.isSome = false ∧ op.check?.isSome = false) ∧
          (op.check?.isSome = true → op.flag?.isSome = false ∧ op.result?.isSome = false) := by
    intro op
    cases op <;> simp [SigOp.flag?, SigOp.result?, SigOp.check?]
  have flags : s.inOrder.filter (fun op => op.flag?.isSome) =
      s.ops.filter fun op => op.flag?.isSome := by
    rw [filter_inOrder (fun _ => rfl) fun _ => rfl, trailerOps, List.filter_append, List.filter_append,
      filter_getLast?_other fun op h => ((disjoint op).2.1 h).1,
      filter_getLast?_other fun op h => ((disjoint op).2.2 h).1, List.filter_filter]
    simp
  have results : (s.inOrder.filter fun op => op.result?.isSome).getLast? =
      (s.ops.filter fun op => op.result?.isSome).getLast? := by
    rw [filter_inOrder (fun _ => rfl) fun _ => rfl, trailerOps, List.filter_append, List.filter_append,
      filter_filter_other fun op h => ((disjoint op).1 h).1,
      filter_getLast?_other fun op h => ((disjoint op).2.2 h).2, List.append_nil, List.nil_append,
      filter_getLast?]
  have checks : (s.inOrder.filter fun op => op.check?.isSome).getLast? =
      (s.ops.filter fun op => op.check?.isSome).getLast? := by
    rw [filter_inOrder (fun _ => rfl) fun _ => rfl, trailerOps, List.filter_append, List.filter_append,
      filter_filter_other fun op h => ((disjoint op).1 h).2,
      filter_getLast?_other fun op h => ((disjoint op).2.1 h).2, List.nil_append, List.nil_append,
      filter_getLast?]
  rw [trailerOps, flags, results, checks, trailerOps]

theorem hasParamComments_inOrder {s : Sig}
    (comments : s.hasParamComments = true ∨ ∀ p ∈ s.entries, p.comments = []) :
    ({ ops := s.inOrder } : Sig).hasParamComments = s.hasParamComments := by
  have all : s.allParams?.toList.head?.getD [] = s.entries := by
    rw [allParams?, entries]
    cases s.ops.filterMap SigOp.params? with
    | nil => rfl
    | cons first rest => rfl
  have first : ∀ p ∈ (s.ops.filterMap SigOp.params?).head?.getD [], p ∈ s.entries := by
    rw [entries]
    cases s.ops.filterMap SigOp.params? with
    | nil => exact fun p none => absurd none List.not_mem_nil
    | cons first rest => exact fun p member => List.mem_append_left _ member
  rw [hasParamComments_eq, filterMap_params?_inOrder, all]
  rcases comments with noted | silent
  · have some := noted
    rw [hasParamComments_eq, Bool.not_eq_true', List.all_eq_false] at some
    obtain ⟨p, member, comment⟩ := some
    rw [noted, Bool.not_eq_true', List.all_eq_false]
    exact ⟨p, first p member, comment⟩
  · have quiet : (s.entries.all fun p => p.comments.isEmpty) = true := by simpa using silent
    rw [hasParamComments_eq, quiet]
    refine congrArg _ (List.all_eq_true.2 fun p member => ?_).symm
    rw [silent p (first p member)]
    rfl

/-- A signature is printed in the same way if its operations are put into printed order. -/
theorem printsAs_inOrder {s : Sig}
    (comments : s.hasParamComments = true ∨ ∀ p ∈ s.entries, p.comments = []) :
    s.PrintsAs { ops := s.inOrder } := by
  refine ⟨s.flatMap_typeNames_inOrder, ?_, ?_, hasParamComments_inOrder comments⟩
  · rw [paramsView, paramsView, allParams?, filterMap_params?_inOrder]
    cases s.allParams? with
    | none => rfl
    | some ps => simp
  · rw [trailerText?_eq, trailerText?_eq, trailerOps_inOrder]

theorem printsAs_written {s : Sig} (h : s.Printable) : s.PrintsAs s.written :=
  (printsAs_inOrder h.2).trans (printsAs_mapParams (fun p => by
    rw [entryView, entryView, SigParam.written, commentLines_written]
    rfl) { ops := s.inOrder })

theorem printsAs_unlocated (s : Sig) : s.PrintsAs s.unlocated :=
  printsAs_mapParams (fun p => by
    rw [entryView, entryView, SigParam.unlocated, commentLines_unlocated]
    rfl) s

end Sig

/-! ## Statements -/

theorem sigDocs_map {f : Sig → Sig} {sigs : List Sig} {depth : Nat}
    (h : ∀ s ∈ sigs, (f s).doc o depth = s.doc o depth) :
    o.sigDocs depth (sigs.map f) = o.sigDocs depth sigs := by
  rw [PrintOptions.sigDocs, List.flatMap_map, PrintOptions.sigDocs]
  induction sigs with
  | nil => rfl
  | cons s sigs ih =>
    rw [List.flatMap_cons, List.flatMap_cons, h s List.mem_cons_self,
      ih fun s member => h s (List.mem_cons_of_mem _ member)]

theorem paramsDocs_map {f : Param → Param} (same : ∀ p : Param,
      entryView ((f p).render, (f p).comments) = entryView (p.render, p.comments)) (ps : List Param) :
    o.paramsDocs (ps.map f) = o.paramsDocs ps := by
  refine paramsDocs_congr ?_
  rw [List.map_map]
  exact List.map_congr_left fun p _ => same p

/-- The nodes differ in nothing that is printed. -/
structure Node.PrintsAs (o : PrintOptions) (n n' : Node) : Prop where
  comments : commentLines n'.comments = commentLines n.comments
  scope : n'.scope? = n.scope?
  leaf : ∀ depth, o.leafDocs depth n'.decl = o.leafDocs depth n.decl

theorem Node.printsAs_unlocated (n : Node) : n.PrintsAs o n.unlocated := by
  refine ⟨commentLines_unlocated _, ?_, fun depth => ?_⟩
  · obtain ⟨decl, comments, loc⟩ := n
    cases decl <;> rfl
  · obtain ⟨decl, comments, loc⟩ := n
    cases decl with
    | method m =>
      have params : o.paramsDocs (m.params.map Param.unlocated) = o.paramsDocs m.params :=
        paramsDocs_map (fun p => by
          rw [entryView, entryView, Param.unlocated, commentLines_unlocated]
          rfl) _
      show o.sigDocs depth (m.sigs.map Sig.unlocated) ++ [o.methodDoc m.unlocated] = _
      rw [sigDocs_map fun s _ => s.printsAs_unlocated.doc depth, PrintOptions.methodDoc,
        Method.unlocated, params]
      rfl
    | attr a =>
      show o.sigDocs depth (a.sigs.map Sig.unlocated) ++ [o.attributeDoc a.unlocated] = _
      rw [sigDocs_map fun s _ => s.printsAs_unlocated.doc depth]
      rfl
    | _ => rfl

theorem Node.printsAs_written {n : Node} (h : n.Printable o) : n.PrintsAs o n.written := by
  refine ⟨commentLines_written _, ?_, fun depth => ?_⟩
  · obtain ⟨decl, comments, loc⟩ := n
    cases decl <;> rfl
  · obtain ⟨decl, comments, loc⟩ := n
    cases decl with
    | method m =>
      have params : o.paramsDocs (m.params.map Param.written) = o.paramsDocs m.params :=
        paramsDocs_map (fun p => by
          rw [entryView, entryView, Param.written, commentLines_written]
          rfl) _
      show o.sigDocs depth (m.sigs.map Sig.written) ++ [o.methodDoc m.written] = _
      rw [sigDocs_map fun s member => (Sig.printsAs_written (h.1.2.2 s member)).doc depth,
        PrintOptions.methodDoc, Method.written, params]
      rfl
    | attr a =>
      show o.sigDocs depth (a.sigs.map Sig.written) ++ [o.attributeDoc a.written] = _
      rw [sigDocs_map fun s member => (Sig.printsAs_written (h.1.2.2 s member)).doc depth]
      rfl
    | _ => rfl

theorem statementDoc_congr {n n' : Node} (same : n.PrintsAs o n') {body body' : List Outline}
    (empty : body'.isEmpty = body.isEmpty)
    (docs : ∀ depth, o.bodyDocs depth body' = o.bodyDocs depth body) (depth : Nat) :
    o.statementDoc depth (.mk n' body') = o.statementDoc depth (.mk n body) := by
  obtain ⟨comments, scope, leaf⟩ := same
  have leaves := leaf depth
  rw [PrintOptions.statementDoc, PrintOptions.statementDoc, commentDocs_congr comments, empty]
  simp only [docs]
  obtain ⟨decl, comments, loc⟩ := n
  obtain ⟨decl', comments', loc'⟩ := n'
  cases decl <;> cases decl' <;> simp_all [Node.scope?]

mutual

theorem statementDoc_unlocated : ∀ (os : Outline) (depth : Nat),
    o.statementDoc depth os.unlocated = o.statementDoc depth os
  | .mk node body, depth => by
    rw [Outline.unlocated]
    refine statementDoc_congr node.printsAs_unlocated ?_ (bodyDocs_unlocated body) depth
    cases body <;> rfl

theorem bodyDocs_unlocated : ∀ (os : List Outline) (depth : Nat),
    o.bodyDocs depth (Outline.unlocatedAll os) = o.bodyDocs depth os
  | [], _ => rfl
  | first :: os, depth => by
    rw [Outline.unlocatedAll, PrintOptions.bodyDocs, statementDoc_unlocated first,
      bodyDocs_unlocated os, PrintOptions.bodyDocs]

end

mutual

theorem statementDoc_written : ∀ (os : Outline) (around depth : Nat), os.printable o around = true →
    o.statementDoc depth os.written = o.statementDoc depth os
  | .mk node body, around, depth, h => by
    rw [Outline.printable, Bool.and_eq_true, decide_eq_true_eq] at h
    obtain ⟨printable, inside⟩ := h
    rw [Outline.written]
    refine statementDoc_congr (Node.printsAs_written printable) ?_ (fun d => ?_) depth
    · cases body <;> rfl
    · split at inside
      · exact bodyDocs_written body _ d (Bool.and_eq_true_iff.1 inside).2
      · rw [List.isEmpty_iff.1 inside]
        rfl

theorem bodyDocs_written : ∀ (os : List Outline) (around depth : Nat),
    Outline.printableAll o around os = true →
      o.bodyDocs depth (Outline.writtenAll os) = o.bodyDocs depth os
  | [], _, _, _ => rfl
  | first :: os, around, depth, h => by
    rw [Outline.printableAll, Bool.and_eq_true] at h
    rw [Outline.writtenAll, PrintOptions.bodyDocs, statementDoc_written first around depth h.1,
      bodyDocs_written os around depth h.2, PrintOptions.bodyDocs]

end

end InterfaceFile
