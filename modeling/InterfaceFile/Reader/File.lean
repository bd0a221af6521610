import InterfaceFile.Reader.Statement
import InterfaceFile.Tree.Outline

/-!
# Reading files

Statements begin on a fresh line. Comments and signatures wait for the declaration after them; a
comment on the line of a declaration comes after those that waited. A scope stays open until its
`end`. The scopes that are open are kept in a list, so one loop reads a whole file however deep it
is nested.
-/

namespace InterfaceFile

/-- The most scopes that may stand inside each other. -/
def nestingLimit : Nat := 128

/-- A scope whose `end` has not been read. -/
structure OpenScope where
  scope : Scope
  comments : List Comment
  start : Position
  /-- The bytes of the header. -/
  header : Span
  /-- The statements before it in the scope around it, latest first. -/
  earlier : List Outline

/-- What the `end` of a scope closes. -/
def Scope.construct (s : Scope) : Construct :=
  match s.kind with
  | .moduleDef => .moduleBody
  | _ => .classBody

/-- A file that is being read. -/
structure OpenFile where
  /-- The comments that wait for a declaration, latest first. -/
  remarks : List Remark := []
  /-- The signatures that wait for a declaration, latest first. -/
  sigs : List (Sig × Span) := []
  /-- The statements of the innermost scope, latest first. -/
  statements : List Outline := []
  /-- The open scopes, innermost first. -/
  scopes : List OpenScope := []

namespace OpenFile

/-- Lets comments wait, given in reading order. -/
def await (f : OpenFile) (remarks : List Remark) : OpenFile :=
  { f with remarks := remarks.reverse ++ f.remarks }

/-- The waiting comments in reading order. -/
def waiting (f : OpenFile) : List Comment :=
  f.remarks.reverse.map Remark.comment

/-- The error of the first signature that waits, if what follows takes no signatures. -/
def danglingSig? (f : OpenFile) : Option ReadError :=
  f.sigs.getLast?.map fun (_, span) => ⟨.danglingSig, span⟩

/-- The error of the first comment that waits, or else of the first signature, if a scope or the
    file ends here. -/
def dangling? (f : OpenFile) : Option ReadError :=
  (f.remarks.getLast?.map fun remark => ⟨.danglingComment, remark.span⟩) <|> f.danglingSig?

/-- Adds a statement to the innermost scope. No comments wait after it. -/
def add (f : OpenFile) (statement : Outline) : OpenFile :=
  { f with remarks := [], statements := statement :: f.statements }

end OpenFile

/-- The declaration with the given signatures after its own, if it can have signatures. -/
def Declaration.withSigs? (sigs : List Sig) : Declaration → Option Declaration
  | .method m => some (.method { m with sigs := m.sigs ++ sigs })
  | .attr a => some (.attr { a with sigs := a.sigs ++ sigs })
  | _ => none

namespace Reader

/-- Stops if there is an error. -/
def check : Option ReadError → Reader Unit
  | some e => fail e.kind e.span
  | none => return ()

theorem forward_check (e : Option ReadError) : Forward (check e) := by
  cases e with
  | some e => exact moves_fail _ _ _
  | none => exact forward_pure _

/-- Reads the `# typed:` line at the top of a file and the empty line after it. -/
def strictness? : Reader (Option String) := do
  if ← atText "# typed:".toList then
    match ← remark? with
    | none => return none
    | some remark =>
      let level := Text.trim (Text.dropCopies "typed:".toList remark.comment.text.toList)
      let _ ← eat '\n'
      if ← look fun rest => ['\n'].isPrefixOf rest || ['\r', '\n'].isPrefixOf rest then
        skipSpaces
        let _ ← eat '\n'
        return some (String.ofList level)
      else return some (String.ofList level)
  else return none

/-- Ends the file. -/
def closeFile (f : OpenFile) : Reader (Turn OpenFile (List Outline)) := do
  check f.dangling?
  match f.scopes with
  | s :: _ => fail (.missingEnd s.scope.construct) s.header
  | [] => return .done f.statements.reverse

theorem moves_closeFile (f : OpenFile) : Moves Turn.IsAgain (closeFile f) := by
  refine (forward_check _).andThen fun _ => ?_
  cases f.scopes with
  | nil => exact moves_pure id
  | cons s rest => exact moves_fail _ _ _

/-- Ends the innermost scope, whose `end` began at `start` and has been read. -/
def closeScope (f : OpenFile) (start : Position) : Reader (Turn OpenFile (List Outline)) := do
  check f.dangling?
  let stop ← here
  match f.scopes with
  | [] => fail .unexpectedEnd (start.spanTo stop)
  | s :: outer =>
    let remark ← finishLine
    let loc ← locate s.start stop
    let node : Node :=
      { decl := .scope s.scope
        comments := s.comments ++ remark.toList.map Remark.comment
        loc }
    return .again
      { statements := .mk node f.statements.reverse :: s.earlier
        scopes := outer }

theorem forward_closeScope (f : OpenFile) (start : Position) : Forward (closeScope f start) := by
  refine (forward_check _).andThen fun _ => forward_here.andThen fun _ => ?_
  cases f.scopes with
  | nil => exact moves_fail _ _ _
  | cons s outer =>
    exact forward_finishLine.andThen fun _ => (forward_locate _ _).andThen fun _ => forward_pure _

/-- Goes on after the header of a scope that began at `start`: `; end` closes it at once, otherwise
    it is open. -/
def openScope (f : OpenFile) (start : Position) (scope : Scope) : Reader OpenFile := do
  check f.danglingSig?
  skipSpaces
  if ← eat ';' then
    skipSpaces
    expectKeyword "end" .endKeyword
    let stop ← here
    let remark ← finishLine
    let loc ← locate start stop
    let comments := (f.await remark.toList).waiting
    return f.add (.mk { decl := .scope scope, comments, loc } [])
  else
    let stop ← here
    let remark ← finishLine
    if nestingLimit ≤ f.scopes.length then fail (.tooDeep nestingLimit) (start.spanTo stop)
    else
      let opened : OpenScope :=
        { scope, start
          comments := (f.await remark.toList).waiting
          header := start.spanTo stop
          earlier := f.statements }
      return { scopes := opened :: f.scopes }

theorem forward_openScope (f : OpenFile) (start : Position) (scope : Scope) :
    Forward (openScope f start scope) :=
  (forward_check _).andThen fun _ => forward_skipSpaces.andThen fun _ => (moves_eat _).branch
    (forward_skipSpaces.andThen fun _ => (advances_expectKeyword _ _).andThen fun _ =>
      forward_here.andThen fun _ => forward_finishLine.andThen fun _ =>
        (forward_locate _ _).andThen fun _ => forward_pure _)
    (forward_here.andThen fun _ => forward_finishLine.andThen fun _ => .ite
      (moves_fail _ _ _) (forward_pure _))

/-- Goes on after a declaration without a body that began at `start`. It takes the comments and the
    signatures that wait. -/
def closeLeaf (f : OpenFile) (start : Position) (decl : Declaration) (remarks : List Remark) :
    Reader OpenFile := do
  let stop ← here
  let remark ← finishLine
  let loc ← locate start stop
  let comments := (f.await (remarks ++ remark.toList)).waiting
  match decl.withSigs? (f.sigs.reverse.map Prod.fst) with
  | some decl => return { f with sigs := [] }.add (.mk { decl, comments, loc } [])
  | none =>
    check f.danglingSig?
    return f.add (.mk { decl, comments, loc } [])

theorem forward_closeLeaf (f : OpenFile) (start : Position) (decl : Declaration)
    (remarks : List Remark) : Forward (closeLeaf f start decl remarks) := by
  refine forward_here.andThen fun _ => forward_finishLine.andThen fun _ =>
    (forward_locate _ _).andThen fun _ => ?_
  cases decl.withSigs? (f.sigs.reverse.map Prod.fst) with
  | some decl => exact forward_pure _
  | none => exact (forward_check _).andThen fun _ => forward_pure _

/-- Goes on after a statement that began at `start`. -/
def closeStatement (f : OpenFile) (start : Position) : Statement → Reader OpenFile
  | .leaf decl remarks => closeLeaf f start decl remarks
  | .header scope => openScope f start scope
  | .sig sig remarks => do
    let stop ← here
    let remark ← finishLine
    return { f.await (remarks ++ remark.toList) with
      sigs := (sig, start.spanTo stop) :: f.sigs }

theorem forward_closeStatement (f : OpenFile) (start : Position) (s : Statement) :
    Forward (closeStatement f start s) := by
  cases s with
  | leaf decl remarks => exact forward_closeLeaf _ _ _ _
  | header scope => exact forward_openScope _ _ _
  | sig sig remarks =>
    exact forward_here.andThen fun _ => forward_finishLine.andThen fun _ => forward_pure _

/-- Reads the next part of a file: an empty line, a comment, an `end` or a statement. -/
def fileStep (f : OpenFile) : Reader (Turn OpenFile (List Outline)) := do
  skipSpaces
  let start ← here
  if ← eat '\n' then
    let loc ← locate start start
    return .again { f with statements := .mk { Node.blank with loc } [] :: f.statements }
  else match ← remark? with
    | some remark =>
      let _ ← eat '\n'
      return .again (f.await [remark])
    | none =>
      if ← atEnd then closeFile f
      else if ← eatKeyword "end" then closeScope f start
      else
        let s ← statement
        let f ← closeStatement f start s
        return .again f

theorem moves_fileStep (f : OpenFile) : Moves Turn.IsAgain (fileStep f) :=
  forward_skipSpaces.andThen fun _ => forward_here.andThen fun _ => (moves_eat _).branch
    ((forward_locate _ _).andThen fun _ => forward_pure _) <|
    moves_remark?.option (fun _ => (moves_eat _).andThen fun _ => forward_pure _) <|
      (forward_look _).andThen fun _ => .ite (moves_closeFile f) <|
        (moves_eatKeyword _).branch (forward_closeScope _ _) <|
          advances_statement.start fun _ => (forward_closeStatement _ _ _).andThen fun _ =>
            forward_pure _

/-- Reads a whole file. -/
def file : Reader Tree := do
  let strictness ← strictness?
  let statements ← loop fileStep moves_fileStep {}
  return .ofOutlines strictness statements

end Reader

namespace Tree

/-- Reads declarations from a text. The name of the file goes into the location of every node. -/
def parse (source : String) (file : Option String) : Except ReadError Tree :=
  Reader.file.run file source.toList

end Tree

end InterfaceFile
