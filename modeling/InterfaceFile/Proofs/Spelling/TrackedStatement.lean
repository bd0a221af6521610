import InterfaceFile.Proofs.Notes.NotedStatement
import InterfaceFile.Proofs.Spelling.TrackedParts

/-!
# Statements in two spellings

A statement ends on the line of its last character. So it is not read to the end of a text that ends
with a newline, and whether another text comes after it does not matter.
-/

namespace InterfaceFile

namespace Respelling

variable {m : Respelling} {x x' : List Char}

theorem Spells.head?_eq_iff {c : Char} (inLine : isLineEnd c = false) (h : m.Spells x x') :
    x'.head? = some c ↔ x.head? = some c := by
  obtain ⟨newline, ret⟩ := ne_of_isLineEnd inLine
  cases h with
  | nil | cons => rfl
  | last | newline => simp [newline, ret]

theorem Spells.startsUpper_eq (h : m.Spells x x') : startsUpper x' = startsUpper x := by
  cases h <;> rfl

theorem Spells.continuesPath_eq (h : m.Spells x x') :
    Reader.continuesPath x' = Reader.continuesPath x := by
  have unfolded : ∀ y, Reader.continuesPath y =
      ([':', ':'].isPrefixOf y && startsUpper (y.drop 2)) := by
    intro y
    unfold Reader.continuesPath
    split
    · rfl
    · next other =>
      cases begins : [':', ':'].isPrefixOf y with
      | false => rfl
      | true =>
        obtain ⟨more, text⟩ := List.isPrefixOf_iff_prefix.1 begins
        exact absurd text.symm (other more)
  obtain ⟨same, left⟩ := h.drop (w := [':', ':']) rfl
  rw [unfolded, unfolded, same]
  cases begins : [':', ':'].isPrefixOf x with
  | false => rfl
  | true => exact congrArg _ (left begins).startsUpper_eq

/-- A word is a struct field in both texts or in neither. -/
theorem Spells.structField_eq (h : m.Spells x x') (word : List Char) :
    StructField.ofWord? word x' = StructField.ofWord? word x := by
  have next := (h.run (p := fun c => c = ' ' || c = '\t') rfl rfl).2
  have symbol := next.head?_eq_iff (c := ':') rfl
  rw [StructField.ofWord?, StructField.ofWord?]
  exact ite_cond_congr (propext symbol)

def SameDeclaration (m : Respelling) (d d' : Declaration) : Prop :=
  d.unlocated = (d'.mapTexts m.undo).unlocated

/-- The two statements are the same once the spelling is undone. -/
inductive SameStatement (m : Respelling) : Statement → Statement → Prop
  | leaf {d d' : Declaration} {rs rs' : List Remark} (decl : m.SameDeclaration d d')
      (remarks : Reader.SameRemarks rs rs') : SameStatement m (.leaf d rs) (.leaf d' rs')
  | sig {s s' : Sig} {rs rs' : List Remark} (sig : m.SameSig s s')
      (remarks : Reader.SameRemarks rs rs') : SameStatement m (.sig s rs) (.sig s' rs')
  | header {s s' : Scope} (scope : s = s'.mapTexts m.undo) : SameStatement m (.header s) (.header s')

theorem SameParam.untyped {p p' : Param} (same : m.SameParam p p') : p'.type = none := by
  have types : p.type = p'.type.map m.undo := congrArg Param.type same.2
  exact Option.map_eq_none_iff.1 (types.symm.trans same.1)

/-- A method that has been read has no signatures yet. -/
theorem sameMethod (name : String) (singleton : Bool) (visibility : Visibility)
    {params params' : List Param} (same : List.Forall₂ m.SameParam params params') :
    m.SameDeclaration
      (.method { Method.ofTypes name singleton params none with visibility })
      (.method { Method.ofTypes name singleton params' none with visibility }) := by
  obtain ⟨untyped, alike⟩ := (List.forall₂_and_left _ _).1 same
  have untyped' : ∀ p ∈ params', p.type = none :=
    ((List.forall₂_and_left _ _).1 (same.flip.imp fun _ _ h => ⟨SameParam.untyped h, h⟩)).1
  have mapped := map_eq_of_forall₂ alike
  rw [SameDeclaration, Declaration.mapTexts, Method.mapTexts, Method.sigs_ofTypes name singleton untyped',
    Declaration.unlocated, Declaration.unlocated, Method.unlocated, Method.unlocated,
    Method.sigs_ofTypes name singleton untyped]
  simp [Method.ofTypes, mapped]

end Respelling

namespace Reader

variable {m : Respelling} {x x' : List Char}

theorem tracks_pathStep (path : List Char) (h : m.Spells x x') :
    Tracks m False (pathStep path) (pathStep path) x x' (Turned (m.Leaves Eq) (m.Leaves Eq)) := by
  refine (tracks_word? (fun _ _ _ _ => rfl) h).option (fun word _ y y' same left => ?_)
    (tracks_unexpected _ _)
  subst same
  refine tracks_look left.continuesPath_eq (.ite .rfl (fun _ => ?_) fun _ => ?_)
  · exact (tracks_eatText rfl left).branch
      (fun _ _ left => tracks_pure (.again ⟨rfl, left⟩)) (tracks_pure (.again ⟨rfl, left⟩))
  · exact tracks_pure (.done ⟨rfl, left⟩)

theorem tracks_constantName (h : m.Spells x x') :
    Tracks m False constantName constantName x x' (m.Leaves Eq) := by
  have path : ∀ start y y', m.Spells y y' →
      Tracks m False (loop pathStep (fun path => (advances_pathStep path).moves) start)
        (loop pathStep (fun path => (advances_pathStep path).moves) start) y y' (m.Leaves Eq) :=
    fun start y y' left =>
      tracks_loop (I := m.Leaves Eq) (fun s _ _ _ same => same.1 ▸ tracks_pathStep s same.2) ⟨rfl, left⟩
  exact (tracks_eatText rfl h).branch (path _) (path _ x x' h)

theorem tracks_superclass? (h : m.Spells x x') :
    Tracks m False superclass? superclass? x x' (m.Leaves fun s s' => s = s'.map m.undo) := by
  refine (tracks_skipSpaces h).andThen fun _ _ y y' aligned =>
    (tracks_eat rfl aligned.spells).branch (fun z z' left => ?_)
      (tracks_pure ⟨rfl, aligned.spells⟩)
  exact (tracks_skipSpaces left).andThen fun _ _ _ _ aligned =>
    (tracks_someText_line rfl rfl _ aligned.spells).andThen fun _ _ _ _ read =>
      tracks_pure ⟨congrArg some read.1.undo_eq.symm, read.2⟩

theorem tracks_classHeader (h : m.Spells x x') :
    Tracks m False classHeader classHeader x x' (m.Leaves fun s s' => s = s'.mapTexts m.undo) := by
  refine (tracks_skipSpaces h).andThen fun _ _ y y' aligned =>
    (tracks_eatText rfl aligned.spells).branch (fun z z' left => ?_) ?_
  · exact (tracks_skipSpaces left).andThen fun _ _ _ _ aligned =>
      (tracks_expectKeyword _ _ aligned.spells).andThen fun _ _ _ _ left => tracks_pure ⟨rfl, left⟩
  · refine (tracks_constantName aligned.spells).andThen fun name _ z z' read => ?_
    obtain ⟨rfl, left⟩ := read
    exact (tracks_superclass? left).andThen fun _ _ _ _ read => tracks_pure
      ⟨congrArg (fun superclass => Scope.mk (.classDef superclass) name) read.1, read.2⟩

theorem tracks_methodEnd (start start' : Position) (h : m.Spells x x') :
    Tracks m False (methodEnd start) (methodEnd start') x x'
      (m.Leaves fun o o' => SameRemarks o.toList o'.toList) := by
  refine (tracks_skipSpaces h).andThen fun _ _ y y' aligned =>
    (tracks_eat rfl aligned.spells).branch (fun z z' left => ?_) ?_
  · exact (tracks_skipSpaces left).andThen fun _ _ _ _ aligned =>
      (tracks_expectKeyword _ _ aligned.spells).andThen fun _ _ _ _ left => tracks_pure ⟨rfl, left⟩
  · have shuts : ∀ (o : Option Remark) (stop : Position), Shuts False (eatKeyword "end" >>= fun b =>
        if b = true then pure o else fail (.missingEnd .methodBody) (start.spanTo stop)) :=
      fun _ _ => shuts_eatKeyword (by decide) (gives_fail _ _)
    refine tracks_here fun stop _ => (tracks_finishLine aligned.spells).andThen fun o o' z z' ended =>
      tracks_follows ended.2 (fun left => ?_) (shuts_skipBlanks (shuts o stop))
    refine (tracks_skipBlanks left).bind (fun _ _ _ _ aligned => ?_) fun _ _ => shuts o stop
    exact (tracks_eatKeyword _ aligned.spells).branch (fun _ _ left => tracks_pure ⟨ended.1, left⟩)
      (tracks_fail _ _ _ _)

theorem tracks_methodParamList (h : m.Spells x x') :
    Tracks m False methodParamList methodParamList x x' (m.Leaves (List.Forall₂ m.SameParam)) :=
  tracks_here fun _ _ => (tracks_eat rfl h).branch
    (fun _ _ left => tracks_methodParams _ _ left) (tracks_pure ⟨.nil, h⟩)

theorem tracks_method (visibility : Visibility) (h : m.Spells x x') :
    Tracks m False (method visibility) (method visibility) x x' (m.Leaves m.SameStatement) := by
  -- The method after `self.` or without it.
  have named : ∀ singleton y y', m.Spells y y' → Tracks m False
      (here >>= fun start => readWhile (fun c => !endsMethodName c) >>= fun name =>
        if name.isEmpty then unexpected .methodName
        else methodParamList >>= fun params => methodEnd start >>= fun remark =>
          pure (.leaf (.method { Method.ofTypes (String.ofList name) singleton params none with
            visibility }) remark.toList))
      (here >>= fun start => readWhile (fun c => !endsMethodName c) >>= fun name =>
        if name.isEmpty then unexpected .methodName
        else methodParamList >>= fun params => methodEnd start >>= fun remark =>
          pure (.leaf (.method { Method.ofTypes (String.ofList name) singleton params none with
            visibility }) remark.toList))
      y y' (m.Leaves m.SameStatement) := by
    intro singleton y y' left
    refine tracks_here fun _ _ => (tracks_readWhile rfl rfl left).andThen fun name _ z z' read => ?_
    obtain ⟨rfl, left⟩ := read
    refine .ite .rfl (fun _ => tracks_unexpected _ _) fun _ => (tracks_methodParamList left).andThen
      fun params params' _ _ same => (tracks_methodEnd _ _ same.2).andThen fun _ _ _ _ ended =>
        tracks_pure ⟨.leaf (Respelling.sameMethod _ _ _ same.1) ended.1, ended.2⟩
  exact (tracks_skipSpaces h).andThen fun _ _ y y' aligned =>
    (tracks_eatText rfl aligned.spells).branch (named true)
      (named false y y' aligned.spells)

theorem tracks_attributes (visibility : Visibility) (access : Access) (h : m.Spells x x') :
    Tracks m False (attributes visibility access) (attributes visibility access) x x'
      (m.Leaves m.SameStatement) := by
  refine (tracks_callArgs h).andThen fun args args' y y' read => ?_
  have empty : args'.isEmpty = args.isEmpty := by
    cases read.1 <;> rfl
  refine .ite (by rw [empty]) (fun _ => tracks_unexpected _ _) fun _ =>
    tracks_pure ⟨.leaf ?_ rfl, read.2⟩
  rw [Respelling.SameDeclaration, Declaration.mapTexts, Attribute.mapTexts, read.1.symbolNames.undo_eq]
  rfl

theorem tracks_callStatement (callee : Callee) (h : m.Spells x x') :
    Tracks m False (callStatement callee) (callStatement callee) x x' (m.Leaves m.SameStatement) :=
  (tracks_callOf callee h).andThen fun _ _ _ _ read =>
    tracks_pure ⟨.leaf (congrArg Declaration.call read.1) rfl, read.2⟩

theorem tracks_afterVisibility (visibility : Visibility) (h : m.Spells x x') :
    Tracks m False (afterVisibility visibility) (afterVisibility visibility) x x'
      (m.Leaves m.SameStatement) := by
  refine (tracks_skipSpaces h).andThen fun _ _ y y' aligned =>
    (tracks_word? (fun _ _ _ _ => rfl) aligned.spells).option (fun next _ z z' same left => ?_) ?_
  · subst same
    cases next with
    | none => exact tracks_method _ left
    | some access => exact tracks_attributes _ _ left
  · exact (tracks_callArgs aligned.spells).andThen fun args args' _ _ read => tracks_pure
      ⟨.leaf (congrArg (fun args => Declaration.call { callee := .visibility visibility, args })
        read.1.undo_eq) rfl, read.2⟩

theorem tracks_keywordStatement (keyword : Keyword) (h : m.Spells x x') :
    Tracks m False (keywordStatement keyword) (keywordStatement keyword) x x'
      (m.Leaves m.SameStatement) := by
  cases keyword with
  | moduleWord =>
    refine (tracks_skipSpaces h).andThen fun _ _ _ _ aligned =>
      (tracks_constantName aligned.spells).andThen fun name _ _ _ read => ?_
    obtain ⟨rfl, left⟩ := read
    exact tracks_pure ⟨.header rfl, left⟩
  | classWord =>
    exact (tracks_classHeader h).andThen fun _ _ _ _ read => tracks_pure ⟨.header read.1, read.2⟩
  | defWord => exact tracks_method _ h
  | sigWord =>
    exact (tracks_sig h).andThen fun _ _ _ _ read => tracks_pure ⟨.sig read.1.1 read.1.2, read.2⟩
  | visibility level => exact tracks_afterVisibility _ h
  | attrWord access => exact tracks_attributes _ _ h
  | call callee => exact tracks_callStatement _ h

theorem tracks_constant (h : m.Spells x x') :
    Tracks m False constant constant x x' (m.Leaves m.SameStatement) := by
  refine (tracks_constantName h).andThen fun name _ y y' read => ?_
  obtain ⟨rfl, left⟩ := read
  refine (tracks_skipSpaces left).andThen fun _ _ z z' aligned =>
    tracks_look (aligned.spells.drop rfl).1 (.ite .rfl
      (fun _ => tracks_pure ⟨.leaf rfl rfl, aligned.spells⟩) fun _ => ?_)
  refine (tracks_eat rfl aligned.spells).branch (fun w w' left => ?_)
    (tracks_pure ⟨.leaf rfl rfl, aligned.spells⟩)
  refine (tracks_skipSpaces left).andThen fun _ _ _ _ aligned =>
    (tracks_word? (fun _ _ _ _ => rfl) aligned.spells).option (fun template _ _ _ same left => ?_) ?_
  · subst same
    exact tracks_callStatement _ left
  · exact (tracks_someText_line rfl rfl _ aligned.spells).andThen fun value value' _ _ read =>
      tracks_pure ⟨.leaf (congrArg (fun value => Declaration.const { name, value := some value })
        read.1.undo_eq.symm) rfl, read.2⟩

theorem tracks_otherCall (name : String) (h : m.Spells x x') :
    Tracks m False (otherCall name) (otherCall name) x x' (m.Leaves m.SameStatement) := by
  refine (tracks_eat rfl h).branch (fun y y' left => ?_) ?_
  · exact (tracks_skipSpaces left).andThen fun _ _ _ _ aligned => tracks_look (by rw [aligned.head])
      (.ite .rfl (fun _ => tracks_pure ⟨.leaf rfl rfl, aligned.spells⟩) fun _ =>
        tracks_callStatement _ aligned.spells)
  · exact (tracks_eat rfl h).branch (fun _ _ left => tracks_callStatement _ left)
      (tracks_callStatement _ h)

theorem tracks_plainStatement (h : m.Spells x x') :
    Tracks m False plainStatement plainStatement x x' (m.Leaves m.SameStatement) := by
  refine (tracks_word? (fun w _ _ left => left.structField_eq w) h).option
    (fun field _ y y' same left => ?_) ?_
  · subst same
    exact tracks_callStatement _ left
  · refine tracks_look ?_ (.ite .rfl (fun _ => tracks_constant h) fun _ => ?_)
    · rw [h.startsUpper_eq, (h.drop rfl).1]
    · refine (tracks_identifier? h).option (fun name _ _ _ same left => ?_) (tracks_unexpected _ _)
      subst same
      exact tracks_otherCall _ left

theorem tracks_statement (h : m.Spells x x') :
    Tracks m False statement statement x x' (m.Leaves m.SameStatement) := by
  refine (tracks_word? (fun _ _ _ _ => rfl) h).option (fun keyword _ _ _ same left => ?_)
    (tracks_plainStatement h)
  subst same
  exact tracks_keywordStatement _ left

end Reader

end InterfaceFile
