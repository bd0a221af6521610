import InterfaceFile.Proofs.Bytes.Scripts
import InterfaceFile.Proofs.RoundTrip.ReadParameters
import InterfaceFile.Reader.File

/-!
# The script of a file

The script of every reader, from single words up to the whole file. With it a file is read on the bytes of
its source, and in a source of less than 2³² bytes that is reading it. The texts of constant paths and of the
names of calls are cut out of the source when they have been gone through.
-/

namespace InterfaceFile

namespace Reader

variable {α β γ : Type} {x : List Char}

theorem retakes_of_gives {r : Reader α} {retake : α → Option (List Char → α)}
    (h : ∀ x, Gives r x fun a y => ∀ read make, x = read ++ y → retake a = some make → make read = a) :
    Retakes r retake :=
  ⟨fun run whole make? => h _ _ _ _ rfl run _ _ whole make?⟩

/-! ## Constant paths -/

theorem exists_of_continuesPath (h : continuesPath x = true) : ∃ more, x = ':' :: ':' :: more := by
  unfold continuesPath at h
  split at h
  · next more => exact ⟨more, rfl⟩
  · cases h

/-- One more word of a path has been read, with the `::` after it if there is one. -/
theorem gives_pathStep_text {front path : List Char} {rest : List Char} (whole : front = path ++ rest) :
    Gives (pathStep path) rest fun t y =>
      TurnOf (fun path => front = path ++ y) (fun name => front = name.toList ++ y) t := by
  refine (gives_word? _).bind fun word z given => ?_
  cases word with
  | none => exact gives_unexpected _
  | some word =>
    obtain ⟨-, rfl, means⟩ := given.1 word rfl
    split at means
    case isFalse => cases means
    obtain rfl := Option.some.inj means
    have split : rest.takeWhile isWordChar ++ rest.dropWhile isWordChar = rest :=
      List.takeWhile_append_dropWhile
    refine (gives_look _).bind fun continues z ⟨looked, same⟩ => ?_
    subst looked same
    refine .ite (fun goes => ?_) fun _ => gives_pure ?_
    · obtain ⟨more, text⟩ := exists_of_continuesPath goes
      refine gives_eatText.bind fun found z ⟨taken, missing⟩ => gives_pure ?_
      cases found with
      | false => exact absurd ⟨more, text.symm⟩ (missing rfl)
      | true =>
        calc front = path ++ (rest.takeWhile isWordChar ++ rest.dropWhile isWordChar) := by
              rw [split, whole]
          _ = path ++ rest.takeWhile isWordChar ++ [':', ':'] ++ z := by simp [taken]
    · change front = (String.ofList _).toList ++ _
      rw [String.toList_ofList, List.append_assoc, split, whole]

theorem gives_constantName_text : Gives constantName x fun name y => x = name.toList ++ y :=
  gives_eatText.bind fun _ _ begun =>
    gives_loop_left (Q := fun (name : String) y => x = name.toList ++ y)
      (fun _ _ whole => gives_pathStep_text whole) begun.1

/-- A constant path is the text that is read for it. -/
theorem retakes_constantName : Retakes constantName fun _ => some String.ofList :=
  retakes_of_gives fun x => gives_constantName_text.mono fun name y whole read make split make? => by
    obtain rfl := Option.some.inj make?
    rw [← List.append_cancel_right (whole.symm.trans split), String.ofList_toList]

/-! ## Names of calls -/

theorem bind_assoc (r : Reader α) (f : α → Reader β) (g : β → Reader γ) :
    r >>= f >>= g = r >>= fun a => f a >>= g := by
  funext c
  simp only [bind_eq]
  cases r c <;> rfl

/-- Where spaces have been skipped there are none to skip. -/
theorem skipSpaces_skipSpaces (f : Unit → Reader β) :
    (skipSpaces >>= fun _ => skipSpaces >>= f) = skipSpaces >>= f := by
  funext c
  have stops := Stops.dropWhile isLineSpace c.rest
  change f () ((c.moveOver _ _).moveOver ((c.rest.dropWhile isLineSpace).takeWhile isLineSpace)
    ((c.rest.dropWhile isLineSpace).dropWhile isLineSpace)) = f () (c.moveOver _ _)
  rw [stops.takeWhile_eq, stops.dropWhile_eq]
  rfl

theorem skipSpaces_callStatement (callee : Callee) :
    (skipSpaces >>= fun _ => callStatement callee) = callStatement callee := by
  simp only [callStatement, callOf, callArgs, bind_assoc]
  exact skipSpaces_skipSpaces _

/-- The name of a call to a word without a fixed form. -/
inductive CallName where
  /-- A word with a `!` behind it. -/
  | bang (word : String)
  /-- A word, or a word with a `?` behind it. -/
  | plain (name : String)

/-- Reads the name of a call up to its arguments. -/
def callName? : Reader (Option CallName) := do
  match ← identifier? with
  | none => return none
  | some word =>
    if ← eat '!' then
      skipSpaces
      return some (.bang word)
    else
      let question ← eat '?'
      skipSpaces
      return some (.plain (if question then word ++ "?" else word))

/-- Reads a call to a word without a fixed form. -/
def wordCall : Reader Statement := do
  match ← callName? with
  | none => unexpected .declaration
  | some (.bang word) =>
    if ← atLineEnd then return .leaf (.call { callee := .helper word }) []
    else callStatement (.other (word ++ "!"))
  | some (.plain name) => callStatement (.other name)

theorem wordCall_eq : (do match ← identifier? with
    | some name => otherCall name
    | none => unexpected .declaration) = wordCall := by
  rw [wordCall, callName?, bind_assoc]
  refine bind_congr fun name => ?_
  cases name with
  | none => rfl
  | some word =>
    simp only [otherCall, bind_assoc]
    refine bind_congr fun bang => ?_
    cases bang with
    | true => rfl
    | false =>
      refine Eq.trans (bind_congr fun question => ?_) (bind_assoc _ _ _).symm
      cases question with
      | true => exact (skipSpaces_callStatement _).symm
      | false => exact (skipSpaces_callStatement _).symm

/-- A name without a `!` is the text that is read for it, without the spaces behind it. -/
def CallName.retake : Option CallName → Option (List Char → Option CallName)
  | some (plain _) => some fun read => some (plain (String.ofList (Text.trim read)))
  | _ => none

/-- A text without blanks is what trimming leaves of it with spaces behind it. -/
theorem trim_append_spaces {name spaces : List Char} (solid : ∀ c ∈ name, Text.isBlank c = false)
    (blank : ∀ c ∈ spaces, isLineSpace c = true) : Text.trim (name ++ spaces) = name := by
  rw [Text.trim_append_blank fun c member => Text.isBlank_of_isLineSpace (blank c member),
    (Text.trimmed_of_forall solid).trim_eq]

theorem retakes_callName? : Retakes callName? CallName.retake := by
  refine retakes_of_gives fun x => (gives_word? _).bind fun word y given => ?_
  cases word with
  | none => exact gives_pure fun _ _ _ make? => by cases make?
  | some word =>
    obtain ⟨-, rfl, means⟩ := given.1 word rfl
    split at means
    case isFalse => cases means
    obtain rfl := Option.some.inj means
    have letters : ∀ c ∈ x.takeWhile isWordChar, Text.isBlank c = false := fun c member =>
      isBlank_of_isWordChar (List.all_eq_true.1 List.all_takeWhile c member)
    refine gives_eat.bind fun bang y ⟨noBang, _⟩ => .ite (fun _ => ?_) fun missing => ?_
    · exact gives_next fun _ _ => gives_pure fun _ _ _ make? => by cases make?
    rw [if_neg missing, List.nil_append] at noBang
    refine gives_eat.bind fun question z ⟨mark, _⟩ => gives_skipSpaces.bind fun _ z' spaces =>
      gives_pure fun read make whole make? => ?_
    obtain rfl := Option.some.inj make?
    -- What was read is the word, the mark and the spaces.
    have text : read = x.takeWhile isWordChar ++ (if question then ['?'] else []) ++
        z.takeWhile isLineSpace := by
      refine (List.append_left_inj z').1 ?_
      calc read ++ z' = x.takeWhile isWordChar ++ x.dropWhile isWordChar := by
            rw [← whole, List.takeWhile_append_dropWhile]
        _ = x.takeWhile isWordChar ++ ((if question then ['?'] else []) ++ z) := by rw [noBang, mark]
        _ = _ := by
            rw [spaces, List.append_assoc, List.append_assoc, List.takeWhile_append_dropWhile]
    have solid : ∀ c ∈ x.takeWhile isWordChar ++ (if question then ['?'] else []),
        Text.isBlank c = false := by
      intro c member
      rcases List.mem_append.1 member with inside | last
      · exact letters c inside
      · cases question with
        | true => rw [List.mem_singleton.1 last]; rfl
        | false => cases last
    have name : Text.trim read = x.takeWhile isWordChar ++ (if question then ['?'] else []) := by
      rw [text, trim_append_spaces solid fun c => List.all_eq_true.1 List.all_takeWhile c]
    cases question with
    | true => simp [name]
    | false => simp [name]

/-! ## Operations -/

/-- The names of operations one after the other. -/
theorem sigOp_cases (start : Position) (name : String) : sigOp start name =
    if name = "abstract" then sigOp start "abstract"
    else if name = "override" then sigOp start "override"
    else if name = "overridable" then sigOp start "overridable"
    else if name = "void" then sigOp start "void"
    else if name = "params" then sigOp start "params"
    else if name = "returns" then sigOp start "returns"
    else if name = "type_parameters" then sigOp start "type_parameters"
    else if name = "checked" then sigOp start "checked"
    else here >>= fun stop => fail (.unknownSigOp name) (start.spanTo stop) := by
  split_ifs with h h h h h h h h
  all_goals first | (subst h; rfl) | skip
  unfold sigOp
  split <;> first | contradiction | rfl

end Reader

/-- The note of a statement. -/
def Statement.note : Statement → Note
  | leaf decl _ => .leaf decl
  | sig s _ => .sig s
  | header scope => .opens scope

namespace Script

/-! ## Words, comments and raw texts -/

def skipSpaces : Script Reader.skipSpaces :=
  skipWhile _

def skipBlanks : Script Reader.skipBlanks :=
  skipWhile _

def eatKeyword (keyword : String) : Script (Reader.eatKeyword keyword) :=
  (word? _).bind fun _ => .pure _

def identifier? : Script Reader.identifier? :=
  word? _

def expect (ch : Char) (expected : Expected) : Script (Reader.expect ch expected) :=
  (eat ch).bind fun _ => .ite (.pure _) (.unexpected _)

def expectKeyword (keyword : String) (expected : Expected) :
    Script (Reader.expectKeyword keyword expected) :=
  (eatKeyword keyword).bind fun _ => .ite (.pure _) (.unexpected _)

/-- A comment that is not noted. -/
def bareRemark? : Script Reader.remark? :=
  here.bind fun _ => (eat _).bind fun _ => .ite
    ((eat _).bind fun _ => (readWhile _).bind fun _ => here.bind fun _ => (locate _ _).bind fun _ =>
      .pure _)
    (.pure _)

def remark? : Script Reader.remark? :=
  bareRemark?.noted fun r => r.toList.map fun remark => .comment remark.comment

def finishLine : Script Reader.finishLine :=
  skipSpaces.bind fun _ => remark?.bind fun _ => (look _).bind fun _ => .ite (.pure _) <|
    (eat _).bind fun _ => .ite (.pure _) (.unexpected _)

def someText (stop : Char → Bool) (expected : Expected) : Script (Reader.someText stop expected) :=
  (rawText stop).bind fun _ => .ite (.unexpected _) (.pure _)

/-! ## Arguments -/

def parenArgsStep (args : List String) : Script (Reader.parenArgsStep args) :=
  skipBlanks.bind fun _ => (eat _).bind fun _ => .ite (.pure _) <|
    (someText _ _).bind fun _ => skipBlanks.bind fun _ => (eat _).bind fun _ => .ite (.pure _) <|
      (expect _ _).bind fun _ => .pure _

def parenArgs : Script Reader.parenArgs :=
  (expect _ _).bind fun _ => .loop parenArgsStep _

def bareArgsStep (args : List String) : Script (Reader.bareArgsStep args) :=
  skipSpaces.bind fun _ => (look _).bind fun _ => .ite (.pure _) <|
    (someText _ _).bind fun _ => (eat _).bind fun _ => .ite (.pure _) (.pure _)

def callArgs : Script Reader.callArgs :=
  skipSpaces.bind fun _ => (look _).bind fun _ => .ite parenArgs (.loop bareArgsStep _)

def callBlock? : Script Reader.callBlock? :=
  skipSpaces.bind fun _ => (eat _).bind fun _ => .ite
    ((rawText _).bind fun _ => (expect _ _).bind fun _ => .pure _) (.pure _)

def callOf (callee : Callee) : Script (Reader.callOf callee) :=
  callArgs.bind fun _ => callBlock?.bind fun _ => .pure _

def callStatement (callee : Callee) : Script (Reader.callStatement callee) :=
  (callOf callee).bind fun _ => .pure _

/-! ## Lists -/

variable {α : Type}

/-- A comment in a list goes to the entry before it. -/
def listRemark (kind : EntryKind α) (l : OpenList α) (remark : Remark) : (entries : List α) →
    Script (match (motive := List α → Reader (Reader.Turn (OpenList α) (List α))) entries with
      | last :: earlier =>
        return .again { l with entries := kind.addComment remark.comment last :: earlier }
      | [] => Reader.fail .danglingComment remark.span)
  | [] => .fail _ _
  | _ :: _ => .pure _

def listStep {kind : EntryKind α} (entry : Script kind.read) (start : Nat) (l : OpenList α) :
    Script (Reader.listStep kind start l) :=
  skipBlanks.bind fun _ => (eat _).bind fun _ => .ite (.pure _) <| remark?.bind fun
    | some remark => listRemark kind l remark l.entries
    | none => (look _).bind fun _ => .ite (.fail _ _) <| .ite
      ((eat _).bind fun _ => .ite (.pure _) (.unexpected _)) (entry.bind fun _ => .pure _)

def list {kind : EntryKind α} (entry : Script kind.read) (start : Nat) :
    Script (Reader.list kind start) :=
  .loop (listStep entry start) _

def collector? : Script Reader.collector? :=
  (eatText (by simp)).bind fun _ => .ite (.pure _) <| (eat _).bind fun _ => .ite (.pure _) <|
    (eat _).bind fun _ => .ite (.pure _) (.pure _)

def paramShape : Script Reader.paramShape :=
  (eat _).bind fun _ => .ite
    (skipSpaces.bind fun _ => (look _).bind fun _ => .ite (.pure _) <|
      (rawText _).bind fun _ => .pure _)
    (skipSpaces.bind fun _ => (eat _).bind fun _ => .ite
      (skipSpaces.bind fun _ => (someText _ _).bind fun _ => .pure _) (.pure _))

def param : Script Reader.param :=
  collector?.bind fun
    | some _ => identifier?.bind fun _ => .pure _
    | none => identifier?.bind fun
      | some _ => paramShape.bind fun _ => .pure _
      | none => .unexpected _

def sigParam : Script Reader.sigParam :=
  identifier?.bind fun
    | some _ => (expect _ _).bind fun _ => skipSpaces.bind fun _ => (someText _ _).bind fun _ => .pure _
    | none => .unexpected _

/-! ## Signatures -/

def sigOp (start : Position) (name : String) : Script (Reader.sigOp start name) :=
  .same (Reader.sigOp_cases start name) <| .ite (.pure _) <| .ite (.pure _) <| .ite (.pure _) <|
    .ite (.pure _) <| .ite
      (here.bind fun _ => (expect _ _).bind fun _ => (list sigParam _).bind fun _ => .pure _) <| .ite
      ((expect _ _).bind fun _ => (rawText _).bind fun _ => (expect _ _).bind fun _ => .pure _) <| .ite
      (parenArgs.bind fun _ => .pure _) <| .ite (parenArgs.bind fun _ => .pure _)
      (here.bind fun _ => .fail _ _)

def sigChainStep {skip : Reader Unit} (script : Script skip) (ops : List SigOp) :
    Script (Reader.sigChainStep skip ops) :=
  here.bind fun _ => identifier?.bind fun
    | none => .unexpected _
    | some _ => (sigOp _ _).bind fun _ => script.bind fun _ => (eat _).bind fun _ =>
      .ite (script.bind fun _ => .pure _) (.pure _)

def sigChain {skip : Reader Unit} (script : Script skip) (h : Reader.Forward skip) :
    Script (Reader.sigChain skip h) :=
  .loop (sigChainStep script) _

def sig : Script Reader.sig :=
  skipSpaces.bind fun _ => (eat _).bind fun _ => .ite
    (skipSpaces.bind fun _ => (eat _).bind fun _ => .ite (.pure _) <|
      (sigChain skipSpaces _).bind fun _ => skipSpaces.bind fun _ => (expect _ _).bind fun _ => .pure _)
    ((eatKeyword _).bind fun _ => .ite
      (finishLine.bind fun _ => skipBlanks.bind fun _ => (eatKeyword _).bind fun _ => .ite (.pure _) <|
        (sigChain skipBlanks _).bind fun _ => skipBlanks.bind fun _ => (expectKeyword _ _).bind fun _ =>
          .pure _)
      (.unexpected _))

/-! ## Statements -/

def pathStep (path : List Char) : Script (Reader.pathStep path) :=
  (word? _).bind fun
    | none => .unexpected _
    | some _ => continuesPath.bind fun _ => .ite ((eatText (by simp)).bind fun _ => .pure _) (.pure _)

def constantName : Script Reader.constantName :=
  .sliced ((eatText (by simp)).bind fun _ => .loop pathStep _) Reader.retakes_constantName

def superclass? : Script Reader.superclass? :=
  skipSpaces.bind fun _ => (eat _).bind fun _ => .ite
    (skipSpaces.bind fun _ => (someText _ _).bind fun _ => .pure _) (.pure _)

def classHeader : Script Reader.classHeader :=
  skipSpaces.bind fun _ => (eatText (by simp)).bind fun _ => .ite
    (skipSpaces.bind fun _ => (expectKeyword _ _).bind fun _ => .pure _)
    (constantName.bind fun _ => superclass?.bind fun _ => .pure _)

def methodEnd (start : Position) : Script (Reader.methodEnd start) :=
  skipSpaces.bind fun _ => (eat _).bind fun _ => .ite
    (skipSpaces.bind fun _ => (expectKeyword _ _).bind fun _ => .pure _)
    (here.bind fun _ => finishLine.bind fun _ => skipBlanks.bind fun _ => (eatKeyword _).bind fun _ =>
      .ite (.pure _) (.fail _ _))

def methodParamList : Script Reader.methodParamList :=
  here.bind fun _ => (eat _).bind fun _ => .ite (list param _) (.pure _)

def method (visibility : Visibility) : Script (Reader.method visibility) :=
  skipSpaces.bind fun _ => (eatText (by simp)).bind fun _ => here.bind fun _ =>
    (readWhile _).bind fun _ => .ite (.unexpected _) <|
      methodParamList.bind fun _ => (methodEnd _).bind fun _ => .pure _

def attributes (visibility : Visibility) (access : Access) :
    Script (Reader.attributes visibility access) :=
  callArgs.bind fun _ => .ite (.unexpected _) (.pure _)

def afterVisibility (visibility : Visibility) : Script (Reader.afterVisibility visibility) :=
  skipSpaces.bind fun _ => (word? _).bind fun
    | some none => method _
    | some (some _) => attributes _ _
    | none => callArgs.bind fun _ => .pure _

def keywordStatement : (keyword : Keyword) → Script (Reader.keywordStatement keyword)
  | .moduleWord => skipSpaces.bind fun _ => constantName.bind fun _ => .pure _
  | .classWord => classHeader.bind fun _ => .pure _
  | .defWord => method _
  | .sigWord => sig.bind fun _ => .pure _
  | .visibility level => afterVisibility level
  | .attrWord access => attributes _ access
  | .call callee => callStatement callee

def constant : Script Reader.constant :=
  constantName.bind fun _ => skipSpaces.bind fun _ => (look _).bind fun _ => .ite (.pure _) <|
    (eat _).bind fun _ => .ite
      (skipSpaces.bind fun _ => (word? _).bind fun
        | some _ => callStatement _
        | none => (someText _ _).bind fun _ => .pure _)
      (.pure _)

def callName? : Script Reader.callName? :=
  .sliced (identifier?.bind fun
    | none => .pure _
    | some _ => (eat _).bind fun _ => .ite (skipSpaces.bind fun _ => .pure _)
      ((eat _).bind fun _ => skipSpaces.bind fun _ => .pure _)) Reader.retakes_callName?

def wordCall : Script Reader.wordCall :=
  callName?.bind fun
    | none => .unexpected _
    | some (.bang _) => (look _).bind fun _ => .ite (.pure _) (callStatement _)
    | some (.plain _) => callStatement _

def plainStatement : Script Reader.plainStatement :=
  (word? _).bind fun
    | some _ => callStatement _
    | none => (look _).bind fun _ => .ite constant (.same Reader.wordCall_eq wordCall)

def statement : Script Reader.statement :=
  (word? _).bind fun
    | some keyword => keywordStatement keyword
    | none => plainStatement

/-! ## Files -/

def check : (wrong : Option ReadError) → Script (Reader.check wrong)
  | some _ => .fail _ _
  | none => .pure _

def strictness? : Script Reader.strictness? :=
  (look _).bind fun _ => .ite
    (bareRemark?.bind fun
      | none => .pure _
      | some _ => (eat _).bind fun _ => (look _).bind fun _ => .ite
        (skipSpaces.bind fun _ => (eat _).bind fun _ => .pure _) (.pure _))
    (.pure _)

def closeFile : (f : OpenFile) → Script (Reader.closeFile f)
  | ⟨_, _, _, []⟩ => (check _).bind fun _ => .pure _
  | ⟨_, _, _, _ :: _⟩ => (check _).bind fun _ => .fail _ _

def closeScope : (f : OpenFile) → (start : Position) → Script (Reader.closeScope f start)
  | ⟨_, _, _, []⟩, _ => (check _).bind fun _ => here.bind fun _ => .fail _ _
  | ⟨_, _, _, _ :: _⟩, _ => (check _).bind fun _ => here.bind fun _ => finishLine.bind fun _ =>
    (locate _ _).bind fun _ => .pure _

def openScope (f : OpenFile) (start : Position) (scope : Scope) :
    Script (Reader.openScope f start scope) :=
  (check _).bind fun _ => skipSpaces.bind fun _ => (eat _).bind fun _ => .ite
    (skipSpaces.bind fun _ => ((expectKeyword _ _).noted fun _ => [.closes]).bind fun _ =>
      here.bind fun _ => finishLine.bind fun _ => (locate _ _).bind fun _ => .pure _)
    (here.bind fun _ => finishLine.bind fun _ => .ite (.fail _ _) (.pure _))

/-- A declaration is added with the signatures that wait, or none may wait. -/
def addLeaf (f : OpenFile) (decl : Declaration) (comments : List Comment) (loc : Location) :
    (signed? : Option Declaration) →
      Script (match (motive := Option Declaration → Reader OpenFile) signed? with
        | some decl => return { f with sigs := [] }.add (.mk { decl, comments, loc } [])
        | none => do
          Reader.check f.danglingSig?
          return f.add (.mk { decl, comments, loc } []))
  | some _ => .pure _
  | none => (check _).bind fun _ => .pure _

def closeLeaf (f : OpenFile) (start : Position) (decl : Declaration) (remarks : List Remark) :
    Script (Reader.closeLeaf f start decl remarks) :=
  here.bind fun _ => finishLine.bind fun _ => (locate _ _).bind fun _ => addLeaf f decl _ _ _

def closeStatement (f : OpenFile) (start : Position) :
    (statement : Statement) → Script (Reader.closeStatement f start statement)
  | .leaf decl remarks => closeLeaf f start decl remarks
  | .header scope => openScope f start scope
  | .sig _ _ => here.bind fun _ => finishLine.bind fun _ => .pure _

def fileStep (f : OpenFile) : Script (Reader.fileStep f) :=
  skipSpaces.bind fun _ => here.bind fun _ =>
    ((eat _).noted fun line => if line then [.blank] else []).bind fun _ => .ite
      ((locate _ _).bind fun _ => .pure _) <|
      remark?.bind fun
        | some _ => (eat _).bind fun _ => .pure _
        | none => (look _).bind fun _ => .ite (closeFile f) <|
          ((eatKeyword _).noted fun closed => if closed then [.closes] else []).bind fun _ =>
            .ite (closeScope f _) <| (statement.noted fun s => [s.note]).bind fun _ =>
              (closeStatement f _ _).bind fun _ => .pure _

def body (f : OpenFile) : Script (Reader.loop Reader.fileStep Reader.moves_fileStep f) :=
  .loop fileStep f

def file : Script Reader.file :=
  strictness?.bind fun _ => (body _).bind fun _ => .pure _

end Script

/-! ## Reading a source -/

namespace Tree

/-- Reads declarations on the bytes of a source. There is neither a tree nor an error if a slice that is
    taken on the way reaches past its text or cuts a character. -/
def parseBytes? (source : String) (file : Option String) : Option (Except ReadError Tree) :=
  (Script.file.exec source file 0).map fun outcome => outcome.map Prod.fst

/-- Below 2³² bytes that is reading the characters. -/
theorem parseBytes?_eq {source : String} (file : Option String)
    (short : source.utf8ByteSize < 2 ^ 32) : parseBytes? source file = some (parse source file) := by
  have run := Script.file.exec_eq short (.refl (Cursor.ofText file source.toList))
  rw [parseBytes?]
  refine (congrArg (Option.map _) run).trans ?_
  rw [parse, Reader.run, Option.map_some, ByteOutcome.ofReader]
  cases Reader.file (.ofText file source.toList) <;> rfl

theorem parseBytes?_of_parse {source : String} {file : Option String} {t : Tree}
    (read : parse source file = .ok t) (short : source.utf8ByteSize < 2 ^ 32) :
    parseBytes? source file = some (.ok t) := by
  rw [parseBytes?_eq file short, read]

end Tree

end InterfaceFile
