import InterfaceFile.Proofs.Notes.Noted
import InterfaceFile.Proofs.Reader.Accepted
import InterfaceFile.Proofs.Reader.Signed

/-!
# Comments inside statements

Up to the end of a statement a reader notes nothing but comments, and it notes those that it gives
back with the statement, in order: comments in a parameter list belong to parameters, the others are
left for the declaration.
-/

namespace InterfaceFile

/-! ## What owns comments -/

/-- The comments of the parameters of an operation. -/
def SigOp.comments : SigOp → List Comment
  | params entries => entries.flatMap SigParam.comments
  | _ => []

/-- The comments of the parameters of a signature. -/
def Sig.comments (s : Sig) : List Comment :=
  s.ops.flatMap SigOp.comments

/-- The parameters of a declaration that has parameters. -/
def Declaration.params : Declaration → List Param
  | method m => m.params
  | _ => []

/-- The comments of the parameters of a declaration and of its signatures. -/
def Declaration.comments (d : Declaration) : List Comment :=
  d.params.flatMap Param.comments ++ d.sigs.flatMap Sig.comments

/-- The comments that have been read inside a statement. -/
def Statement.comments : Statement → List Comment
  | leaf decl remarks => decl.comments ++ remarks.map Remark.comment
  | sig s remarks => remarks.map Remark.comment ++ s.comments
  | header _ => []

/-- A declaration in the place of one without a body. -/
def Declaration.isLeaf : Declaration → Bool
  | scope _ | blank => false
  | _ => true

theorem Declaration.isLeaf_of_isSignable {d : Declaration} (h : d.isSignable = true) :
    d.isLeaf = true := by
  cases d with
  | method m => rfl
  | attr a => rfl
  | _ => cases h

/-- The declaration in a statement has no body and no signatures yet. -/
def Statement.Unsigned : Statement → Prop
  | leaf decl _ => decl.isLeaf = true ∧ decl.sigs = []
  | _ => True

/-- A method whose parameters have no types gets no signature of its own. -/
theorem Method.sigs_ofTypes (name : String) (singleton : Bool) {params : List Param}
    (untyped : ∀ p ∈ params, p.type = none) :
    (Method.ofTypes name singleton params none).sigs = [] := by
  have silent : (params.any fun p => p.type.isSome) = false := by
    rw [List.any_eq_false]
    intro p member
    simp [untyped p member]
  simp [ofTypes, silent]

namespace Script

open Reader (Turn Gives TurnOf Moves gives_next gives_pure gives_fail gives_unexpected gives_branch)

variable {α β σ : Type}

/-! ## Readers that note nothing -/

theorem quiet_skipSpaces : skipSpaces.Quiet :=
  trivial

theorem quiet_skipBlanks : skipBlanks.Quiet :=
  trivial

theorem quiet_eatKeyword (keyword : String) : (eatKeyword keyword).Quiet :=
  ⟨trivial, fun _ => trivial⟩

theorem quiet_bareRemark? : bareRemark?.Quiet := by
  simp only [bareRemark?, Quiet, implies_true, and_self]

theorem quiet_expect (ch : Char) (expected : Expected) : (expect ch expected).Quiet :=
  ⟨trivial, fun _ => ⟨trivial, trivial⟩⟩

theorem quiet_expectKeyword (keyword : String) (expected : Expected) :
    (expectKeyword keyword expected).Quiet :=
  ⟨quiet_eatKeyword keyword, fun _ => ⟨trivial, trivial⟩⟩

theorem quiet_someText (stop : Char → Bool) (expected : Expected) : (someText stop expected).Quiet :=
  ⟨trivial, fun _ => ⟨trivial, trivial⟩⟩

theorem quiet_parenArgs : parenArgs.Quiet := by
  simp only [parenArgs, parenArgsStep, skipBlanks, Quiet, quiet_expect, quiet_someText, implies_true,
    and_self]

theorem quiet_callArgs : callArgs.Quiet := by
  simp only [callArgs, bareArgsStep, skipSpaces, Quiet, quiet_parenArgs, quiet_someText, implies_true,
    and_self]

theorem quiet_callStatement (callee : Callee) : (callStatement callee).Quiet := by
  simp only [callStatement, callOf, callBlock?, skipSpaces, Quiet, quiet_callArgs, quiet_expect,
    implies_true, and_self]

theorem quiet_attributes (visibility : Visibility) (access : Access) :
    (attributes visibility access).Quiet := by
  simp only [attributes, Quiet, quiet_callArgs, implies_true, and_self]

theorem quiet_paramShape : paramShape.Quiet := by
  simp only [paramShape, skipSpaces, Quiet, quiet_someText, implies_true, and_self]

theorem quiet_param : param.Quiet := by
  refine ⟨by simp only [collector?, Quiet, implies_true, and_self], fun shape => ?_⟩
  cases shape with
  | some shape => exact ⟨trivial, fun _ => trivial⟩
  | none =>
    refine ⟨trivial, fun name => ?_⟩
    cases name with
    | some name => exact ⟨quiet_paramShape, fun _ => trivial⟩
    | none => trivial

theorem quiet_sigParam : sigParam.Quiet := by
  refine ⟨trivial, fun name => ?_⟩
  cases name with
  | some name =>
    exact ⟨quiet_expect _ _, fun _ => ⟨trivial, fun _ => ⟨quiet_someText _ _, fun _ => trivial⟩⟩⟩
  | none => trivial

theorem quiet_constantName : constantName.Quiet := by
  refine ⟨trivial, fun absolute path => ⟨trivial, fun word => ?_⟩⟩
  cases word with
  | some word => exact ⟨trivial, fun _ => ⟨⟨trivial, fun _ => trivial⟩, trivial⟩⟩
  | none => trivial

theorem quiet_classHeader : classHeader.Quiet := by
  simp only [classHeader, superclass?, skipSpaces, Quiet, quiet_expectKeyword, quiet_constantName,
    quiet_someText, implies_true, and_self]

theorem quiet_constant : constant.Quiet := by
  refine ⟨quiet_constantName, fun _ => ⟨trivial, fun _ => ⟨trivial, fun _ => ⟨trivial, trivial, fun _ =>
    ⟨⟨trivial, fun _ => ⟨trivial, fun member => ?_⟩⟩, trivial⟩⟩⟩⟩⟩
  cases member with
  | some template => exact quiet_callStatement _
  | none => exact ⟨quiet_someText _ _, fun _ => trivial⟩

theorem quiet_wordCall : wordCall.Quiet := by
  refine ⟨⟨trivial, fun word => ?_⟩, fun name => ?_⟩
  · cases word with
    | some word =>
      exact ⟨trivial, fun _ =>
        ⟨⟨trivial, fun _ => trivial⟩, ⟨trivial, fun _ => ⟨trivial, fun _ => trivial⟩⟩⟩⟩
    | none => trivial
  · rcases name with _ | _ | _
    · trivial
    · exact ⟨trivial, fun _ => ⟨trivial, quiet_callStatement _⟩⟩
    · exact quiet_callStatement _

theorem quiet_plainStatement : plainStatement.Quiet := by
  refine ⟨trivial, fun field => ?_⟩
  cases field with
  | some field => exact quiet_callStatement _
  | none => exact ⟨trivial, fun _ => ⟨quiet_constant, quiet_wordCall⟩⟩

/-! ## What a reader ensures -/

/-- Whenever the reader succeeds, `P` holds of its result and of what its script notes. -/
def Ensures {r : Reader α} (script : Script r) (P : α → List Note → Prop) : Prop :=
  ∀ c a d, r c = .ok (a, d) → P a (script.notes c)

section

variable {r : Reader α} {f : α → Reader β} {first : Script r} {next : ∀ a, Script (f a)}
  {P : α → List Note → Prop} {Q : β → List Note → Prop}

theorem Ensures.bind (h : first.Ensures P)
    (then_ : ∀ a before, P a before → (next a).Ensures fun b more => Q b (before ++ more)) :
    (Script.bind first next).Ensures Q := by
  intro c b e run
  obtain ⟨a, d, one, two⟩ := Reader.bind_eq_ok.1 run
  rw [notes, one]
  exact then_ a _ (h c a d one) d b e two

theorem Ensures.mono {P' : α → List Note → Prop} (h : first.Ensures P)
    (sub : ∀ a notes, P a notes → P' a notes) : first.Ensures P' :=
  fun c a d run => sub a _ (h c a d run)

/-- What holds of the results of a reader holds of them together with the notes. -/
theorem Ensures.gives {P' : α → Prop} (h : first.Ensures P) (given : ∀ y, Gives r y fun a _ => P' a) :
    first.Ensures fun a notes => P a notes ∧ P' a :=
  fun c a d run => ⟨h c a d run, given c.rest c a d rfl run⟩

theorem ensures_quiet {P : α → Prop} (quiet : first.Quiet) (given : ∀ y, Gives r y fun a _ => P a) :
    first.Ensures fun a notes => P a ∧ notes = [] :=
  fun c a d run => ⟨given c.rest c a d rfl run, quiet.notes_eq c⟩

/-- After a reader that notes nothing. -/
theorem ensures_next (quiet : first.Quiet) (then_ : ∀ a, (next a).Ensures Q) :
    (Script.bind first next).Ensures Q := by
  refine (ensures_quiet (P := fun _ => True) quiet fun y c a d _ _ => trivial).bind ?_
  rintro a _ ⟨-, rfl⟩
  exact then_ a

theorem ensures_pure {a : α} (h : P a []) : (Script.pure a).Ensures P := by
  intro c b d run
  cases run
  exact h

theorem ensures_fail (kind : ReadErrorKind) (span : Span) :
    (Script.fail kind span : Script (Reader.fail kind span : Reader α)).Ensures P :=
  fun c a d run => by cases run

theorem ensures_unexpected (expected : Expected) :
    (Script.unexpected expected : Script (Reader.unexpected expected : Reader α)).Ensures P :=
  fun c a d run => by cases run

theorem Ensures.noted {taken : α → List Note}
    (h : first.Ensures fun a before => P a (before ++ taken a)) : (first.noted taken).Ensures P := by
  intro c a d run
  rw [notes, run]
  exact h c a d run

/-- After a reader of which nothing is noted but that it was there. -/
theorem ensures_noted {taken : α → List Note} (quiet : first.Quiet)
    (then_ : ∀ a, (next a).Ensures fun b more => Q b (taken a ++ more)) :
    (Script.bind (first.noted taken) next).Ensures Q := by
  have all : (first.noted taken).Ensures fun a notes => notes = taken a :=
    .noted fun c a d _ => congrArg (· ++ taken a) (quiet.notes_eq c)
  refine all.bind ?_
  rintro a _ rfl
  exact then_ a

theorem Ensures.ite {cond : Prop} [Decidable cond] {s : Reader α} {yes : Script r} {no : Script s}
    (h : cond → yes.Ensures P) (h' : ¬ cond → no.Ensures P) :
    (Script.ite yes no : Script (if cond then r else s)).Ensures P := by
  intro c a d run
  rw [notes]
  split at run
  · next holds => exact if_pos holds ▸ h holds c a d run
  · next fails => exact if_neg fails ▸ h' fails c a d run

/-- A test whose result is only used to choose what comes next. -/
theorem ensures_branch {test : Reader Bool} {r s : Reader β} {script : Script test} {yes : Script r}
    {no : Script s} (quiet : script.Quiet) (h : yes.Ensures Q) (h' : no.Ensures Q) :
    (Script.bind script fun b => (Script.ite yes no : Script (if b = true then r else s))).Ensures Q :=
  ensures_next quiet fun _ => .ite (fun _ => h) fun _ => h'

/-- A test that is noted if it succeeds. -/
theorem ensures_marked {test : Reader Bool} {r s : Reader β} {script : Script test} {yes : Script r}
    {no : Script s} {n : Note} (quiet : script.Quiet) (h : yes.Ensures fun b more => Q b (n :: more))
    (h' : no.Ensures Q) :
    (Script.bind (script.noted fun found => if found then [n] else []) fun b =>
      (Script.ite yes no : Script (if b = true then r else s))).Ensures Q := by
  refine ensures_noted quiet fun b => .ite (fun found => ?_) fun missing => ?_
  · rw [if_pos found]
    exact h
  · rw [if_neg missing]
    exact h'

theorem Ensures.same {s : Reader α} {eq : r = s} {other : Script s} (h : other.Ensures P) :
    (Script.same eq other).Ensures P := by
  subst eq
  exact h

/-- What each turn of a loop keeps, the loop keeps to its end. -/
theorem ensures_loop {step : σ → Reader (Turn σ β)} {progress : ∀ s, Moves Turn.IsAgain (step s)}
    {turn : ∀ s, Script (step s)} {s : σ} {I : σ → List Note → Prop}
    (keeps : ∀ s before, I s before →
      (turn s).Ensures fun t more => TurnOf (I · (before ++ more)) (Q · (before ++ more)) t)
    (h : I s []) : (Script.loop turn s : Script (Reader.loop step progress s)).Ensures Q := by
  have whole : ∀ s c before b e, I s before → Reader.loopFrom step progress s c = .ok (b, e) →
      Q b (before ++ Reader.alongLoop step progress (fun s => (turn s).notes) s c) := by
    intro s c before b e holds run
    fun_induction Reader.alongLoop step progress (fun s => (turn s).notes) s c generalizing before with
    | case1 s c t d again ih =>
      rw [Reader.loopFrom_eq, again] at run
      rw [← List.append_assoc]
      exact ih _ (keeps s before holds c _ d again) run
    | case2 s c b' d done =>
      rw [Reader.loopFrom_eq, done] at run
      cases run
      exact keeps s before holds c _ _ done
    | case3 s c err failed =>
      rw [Reader.loopFrom_eq, failed] at run
      cases run
  exact fun c b e run => whole s c [] b e h run

end

/-! ## Comments -/

/-- The notes are the comments that `owned` finds in the result, in order. -/
def Records {r : Reader α} (script : Script r) (owned : α → List Comment) : Prop :=
  script.Ensures fun a notes => notes = (owned a).map Note.comment

/-- The comment of a remark that may be there. -/
def remarkComments (r : Option Remark) : List Comment :=
  r.toList.map Remark.comment

theorem records_remark? : remark?.Records remarkComments := by
  refine .noted fun c r d _ => (congrArg (· ++ _) (quiet_bareRemark?.notes_eq c)).trans ?_
  cases r <;> rfl

theorem records_finishLine : finishLine.Records remarkComments := by
  refine ensures_next trivial fun _ => records_remark?.bind ?_
  rintro r _ rfl
  have done : (Script.pure r).Ensures fun r' more =>
      (remarkComments r).map Note.comment ++ more = (remarkComments r').map Note.comment :=
    ensures_pure (List.append_nil _)
  exact ensures_branch trivial done (ensures_branch trivial done (ensures_unexpected _))

/-! ## Lists -/

/-- A comment in a list goes to the entry before it. -/
theorem records_list {kind : EntryKind α} {entry : Script kind.read} {owned : α → List Comment}
    (quiet : entry.Quiet) (fresh : ∀ y, Gives kind.read y fun e _ => owned e = [])
    (added : ∀ c e, owned (kind.addComment c e) = owned e ++ [c]) (start : Nat) :
    (list entry start).Records fun es => es.flatMap owned := by
  refine ensures_loop (I := fun l notes =>
    notes = (l.entries.reverse.flatMap owned).map Note.comment) ?_ rfl
  rintro l _ rfl
  refine ensures_next trivial fun _ => ensures_branch trivial ?_ ?_
  · exact ensures_pure (List.append_nil _)
  refine records_remark?.bind ?_
  rintro r _ rfl
  cases r with
  | some remark =>
    obtain ⟨entries, needsComma⟩ := l
    cases entries with
    | nil => exact ensures_fail _ _
    | cons last earlier =>
      refine ensures_pure ?_
      simp [TurnOf, remarkComments, added]
  | none =>
    refine ensures_branch trivial (ensures_fail _ _) (.ite (fun _ => ?_) fun _ => ?_)
    · refine ensures_branch trivial (ensures_pure ?_) (ensures_unexpected _)
      simp [TurnOf, remarkComments]
    · refine (ensures_quiet quiet fresh).bind ?_
      rintro e _ ⟨none, rfl⟩
      refine ensures_pure ?_
      simp [TurnOf, remarkComments, none]

theorem gives_param_comments {y : List Char} :
    Gives Reader.param y fun p _ => p.comments = [] := by
  refine gives_next fun r _ => ?_
  cases r with
  | some shape => exact gives_next fun _ _ => gives_pure rfl
  | none =>
    refine gives_next fun name _ => ?_
    cases name with
    | none => exact gives_unexpected _
    | some name => exact gives_next fun _ _ => gives_pure rfl

theorem gives_sigParam_comments {y : List Char} :
    Gives Reader.sigParam y fun p _ => p.comments = [] := by
  refine gives_next fun name _ => ?_
  cases name with
  | none => exact gives_unexpected _
  | some name =>
    exact gives_next fun _ _ => gives_next fun _ _ => gives_next fun _ _ => gives_pure rfl

/-! ## Signatures -/

theorem records_sigOp (start : Position) (name : String) :
    (sigOp start name).Records SigOp.comments := by
  have silent : ∀ op : SigOp, op.comments = [] → (Script.pure op).Records SigOp.comments :=
    fun op none => ensures_pure (by rw [none]; rfl)
  refine .same <| .ite (fun _ => silent _ rfl) fun _ => .ite (fun _ => silent _ rfl) fun _ =>
    .ite (fun _ => silent _ rfl) fun _ => .ite (fun _ => silent _ rfl) fun _ => .ite (fun _ => ?_) fun _ =>
    .ite (fun _ => ?_) fun _ => .ite (fun _ => ?_) fun _ => .ite (fun _ => ?_) fun _ => ?_
  · refine ensures_next trivial fun _ => ensures_next (quiet_expect _ _) fun _ => ?_
    refine (records_list quiet_sigParam (fun _ => gives_sigParam_comments) (fun _ _ => rfl) _).bind ?_
    rintro es _ rfl
    exact ensures_pure (List.append_nil _)
  · refine ensures_next (quiet_expect _ _) fun _ => ensures_next trivial fun _ => ?_
    exact ensures_next (quiet_expect _ _) fun _ => silent _ rfl
  · exact ensures_next quiet_parenArgs fun _ => silent _ rfl
  · exact ensures_next quiet_parenArgs fun _ => silent _ rfl
  · exact ensures_next trivial fun _ => ensures_fail _ _

theorem records_sigChain {skip : Reader Unit} {script : Script skip} (quiet : script.Quiet)
    (h : Reader.Forward skip) : (sigChain script h).Records Sig.comments := by
  refine ensures_loop (I := fun ops notes =>
    notes = (ops.reverse.flatMap SigOp.comments).map Note.comment) ?_ rfl
  rintro ops _ rfl
  refine ensures_next trivial fun start => ensures_next trivial fun name => ?_
  cases name with
  | none => exact ensures_unexpected _
  | some name =>
    refine (records_sigOp start name).bind ?_
    rintro op _ rfl
    refine ensures_next quiet fun _ => ensures_branch trivial ?_ ?_
    · refine ensures_next quiet fun _ => ensures_pure ?_
      simp [TurnOf]
    · refine ensures_pure ?_
      simp [TurnOf, Sig.comments]

theorem records_sig : sig.Records fun r => remarkComments r.2 ++ r.1.comments := by
  refine ensures_next trivial fun _ => ensures_branch trivial ?_
    (ensures_branch (quiet_eatKeyword _) ?_ (ensures_unexpected _))
  · refine ensures_next trivial fun _ => ensures_branch trivial (ensures_pure rfl) ?_
    refine (records_sigChain quiet_skipSpaces _).bind ?_
    rintro s _ rfl
    refine ensures_next trivial fun _ => ensures_next (quiet_expect _ _) fun _ => ?_
    exact ensures_pure (List.append_nil _)
  · refine records_finishLine.bind ?_
    rintro r _ rfl
    refine ensures_next trivial fun _ => ensures_branch (quiet_eatKeyword _) (ensures_pure ?_) ?_
    · simp [Sig.comments]
    refine (records_sigChain quiet_skipBlanks _).bind ?_
    rintro s _ rfl
    refine ensures_next trivial fun _ => ensures_next (quiet_expectKeyword _ _) fun _ => ensures_pure ?_
    simp

/-! ## Statements -/

/-- The notes of a statement are its comments, and its declaration has no signatures yet. -/
def RecordsStatement {r : Reader Statement} (script : Script r) : Prop :=
  script.Ensures fun s notes => notes = s.comments.map Note.comment ∧ s.Unsigned

/-- A reader that notes nothing gives statements without comments. -/
theorem recordsStatement_quiet {r : Reader Statement} {script : Script r} (quiet : script.Quiet)
    (h : ∀ y, Gives r y fun s _ => s.comments = [] ∧ s.Unsigned) : script.RecordsStatement := by
  refine (ensures_quiet quiet h).mono ?_
  rintro s _ ⟨⟨none, unsigned⟩, rfl⟩
  rw [none]
  exact ⟨rfl, unsigned⟩

theorem records_methodEnd (start : Position) : (methodEnd start).Records remarkComments := by
  refine ensures_next trivial fun _ => ensures_branch trivial ?_ ?_
  · exact ensures_next trivial fun _ => ensures_next (quiet_expectKeyword _ _) fun _ => ensures_pure rfl
  · refine ensures_next trivial fun _ => records_finishLine.bind ?_
    rintro r _ rfl
    refine ensures_next trivial fun _ =>
      ensures_branch (quiet_eatKeyword _) (ensures_pure ?_) (ensures_fail _ _)
    exact List.append_nil _

theorem records_methodParamList :
    methodParamList.Records fun ps => ps.flatMap Param.comments := by
  refine ensures_next trivial fun _ => ensures_branch trivial ?_ (ensures_pure rfl)
  exact records_list quiet_param (fun _ => gives_param_comments) (fun _ _ => rfl) _

theorem records_method (visibility : Visibility) : (method visibility).RecordsStatement := by
  refine ensures_next trivial fun _ => ensures_next trivial fun singleton =>
    ensures_next trivial fun start => ensures_next trivial fun name =>
      .ite (fun _ => ensures_unexpected _) fun _ => ?_
  have typeless : ∀ y, Gives Reader.methodParamList y fun ps _ => ∀ p ∈ ps, p.type = none := fun y =>
    Reader.gives_methodParamList.mono fun ps _ read p member => (read p member).1
  refine (records_methodParamList.gives typeless).bind ?_
  rintro ps _ ⟨rfl, untyped⟩
  refine (records_methodEnd start).bind ?_
  rintro r _ rfl
  have unsigned := Method.sigs_ofTypes (String.ofList name) singleton untyped
  refine ensures_pure ⟨?_, rfl, unsigned⟩
  rw [Statement.comments, Declaration.comments, Declaration.sigs, unsigned]
  simp [Declaration.params, Method.ofTypes, remarkComments]

theorem gives_attributes {visibility : Visibility} {access : Access} {y : List Char} :
    Gives (Reader.attributes visibility access) y fun s _ => s.comments = [] ∧ s.Unsigned :=
  gives_next fun _ _ => .ite (fun _ => gives_unexpected _) fun _ => gives_pure ⟨rfl, rfl, rfl⟩

theorem gives_callStatement_comments {callee : Callee} {y : List Char} :
    Gives (Reader.callStatement callee) y fun s _ => s.comments = [] ∧ s.Unsigned :=
  gives_next fun _ _ => gives_pure ⟨rfl, rfl, rfl⟩

theorem records_afterVisibility (visibility : Visibility) :
    (afterVisibility visibility).RecordsStatement := by
  refine ensures_next trivial fun _ => ensures_next trivial fun next => ?_
  match next with
  | some none => exact records_method visibility
  | some (some _) => exact recordsStatement_quiet (quiet_attributes _ _) fun _ => gives_attributes
  | none => exact ensures_next quiet_callArgs fun _ => ensures_pure ⟨rfl, rfl, rfl⟩

theorem records_keywordStatement (keyword : Keyword) :
    (keywordStatement keyword).RecordsStatement := by
  cases keyword with
  | moduleWord =>
    exact ensures_next trivial fun _ => ensures_next quiet_constantName fun _ =>
      ensures_pure ⟨rfl, trivial⟩
  | classWord => exact ensures_next quiet_classHeader fun _ => ensures_pure ⟨rfl, trivial⟩
  | defWord => exact records_method .pub
  | sigWord =>
    refine records_sig.bind ?_
    rintro ⟨s, r⟩ _ rfl
    exact ensures_pure ⟨List.append_nil _, trivial⟩
  | visibility level => exact records_afterVisibility level
  | attrWord access => exact recordsStatement_quiet (quiet_attributes _ _) fun _ => gives_attributes
  | call callee =>
    exact recordsStatement_quiet (quiet_callStatement _) fun _ => gives_callStatement_comments

theorem gives_plainStatement_comments {y : List Char} :
    Gives Reader.plainStatement y fun s _ => s.comments = [] ∧ s.Unsigned := by
  refine gives_next fun field _ => ?_
  cases field with
  | some field => exact gives_callStatement_comments
  | none =>
    refine gives_branch (fun _ => ?_) fun _ => gives_next fun name _ => ?_
    · refine gives_next fun _ _ => gives_next fun _ _ => gives_branch (fun _ => gives_pure ⟨rfl, rfl, rfl⟩)
        fun _ => gives_branch (fun _ => ?_) fun _ => gives_pure ⟨rfl, rfl, rfl⟩
      refine gives_next fun _ _ => gives_next fun member _ => ?_
      cases member with
      | some template => exact gives_callStatement_comments
      | none => exact gives_next fun _ _ => gives_pure ⟨rfl, rfl, rfl⟩
    · cases name with
      | none => exact gives_unexpected _
      | some name =>
        refine gives_branch (fun _ => ?_) fun _ => gives_branch
          (fun _ => gives_callStatement_comments) fun _ => gives_callStatement_comments
        exact gives_next fun _ _ => gives_branch (fun _ => gives_pure ⟨rfl, rfl, rfl⟩) fun _ =>
          gives_callStatement_comments

theorem records_statement : statement.RecordsStatement := by
  refine ensures_next trivial fun keyword => ?_
  cases keyword with
  | some keyword => exact records_keywordStatement keyword
  | none => exact recordsStatement_quiet quiet_plainStatement fun _ => gives_plainStatement_comments

end Script

end InterfaceFile
