import InterfaceFile.Node.Basic
import InterfaceFile.Reader.Signature

/-!
# Statements in the text

Reads one statement without its surroundings: a declaration, a signature or the header of a scope.
The first word decides which it is.
-/

namespace InterfaceFile

/-- The words that begin a statement of a fixed form. -/
inductive Keyword where
  | moduleWord
  | classWord
  | defWord
  | sigWord
  | visibility (level : Visibility)
  | attrWord (access : Access)
  /-- A call that takes arguments and a block. -/
  | call (callee : Callee)
  deriving DecidableEq, Repr

/-- The keyword with a spelling. -/
def Keyword.ofWord? : String → Option Keyword
  | "module" => some .moduleWord
  | "class" => some .classWord
  | "def" => some .defWord
  | "sig" => some .sigWord
  | "public" => some (.visibility .pub)
  | "protected" => some (.visibility .prot)
  | "private" => some (.visibility .priv)
  | "attr_reader" => some (.attrWord .reader)
  | "attr_writer" => some (.attrWord .writer)
  | "attr_accessor" => some (.attrWord .accessor)
  | "include" => some (.call (.mixin .inclusion))
  | "extend" => some (.call (.mixin .extension))
  | "prepend" => some (.call (.mixin .prepending))
  | "mixes_in_class_methods" => some (.call .mixesInClassMethods)
  | "requires_ancestor" => some (.call .requiresAncestor)
  | _ => none

/-- The struct field with a spelling. It is one only if a symbol follows, after spaces and tabs. -/
def StructField.ofWord? (word rest : List Char) : Option StructField :=
  if (rest.dropWhile fun c => c = ' ' || c = '\t').head? = some ':' then
    match String.ofList word with
    | "const" => some .const
    | "prop" => some .prop
    | _ => none
  else none

/-- A statement that has been read. -/
inductive Statement where
  /-- A declaration without a body, and the comments read inside it. -/
  | leaf (decl : Declaration) (remarks : List Remark)
  /-- A signature, and the comments read inside it. -/
  | sig (sig : Sig) (remarks : List Remark)
  /-- The header of a scope. -/
  | header (scope : Scope)
  deriving Repr

namespace Reader

/-- Is the text, after its word, a `::` with another capitalised word? -/
def continuesPath (rest : List Char) : Bool :=
  match rest with
  | ':' :: ':' :: more => startsUpper more
  | _ => false

/-- Reads one word of a constant path with the `::` after it. `path` is what came before. -/
def pathStep (path : List Char) : Reader (Turn (List Char) String) := do
  match ← word? fun word _ => if startsUpper word then some word else none with
  | none => unexpected .constantName
  | some word =>
    if ← look continuesPath then
      let _ ← eatText [':', ':']
      return .again (path ++ word ++ [':', ':'])
    else return .done (String.ofList (path ++ word))

theorem advances_pathStep (path : List Char) : Advances (pathStep path) :=
  (moves_word? _).option
    (fun _ => (forward_look _).andThen fun _ => .ite
      ((moves_eatText (by simp)).andThen fun _ => forward_pure _) (forward_pure _))
    (moves_unexpected _ _)

/-- Reads a constant path such as `A::B` or `::A`. -/
def constantName : Reader String := do
  let absolute ← eatText [':', ':']
  loop pathStep (fun path => (advances_pathStep path).moves) (if absolute then [':', ':'] else [])

theorem advances_constantName : Advances constantName :=
  (moves_eatText (by simp)).andThen fun _ => advances_loop advances_pathStep _

/-- Reads the superclass of a class, if it has one. -/
def superclass? : Reader (Option String) := do
  skipSpaces
  if ← eat '<' then
    skipSpaces
    let name ← someText (fun c => c = '\n' || c = '#' || c = ';') .superclass
    return some name
  else return none

theorem forward_superclass? : Forward superclass? :=
  forward_skipSpaces.andThen fun _ => (moves_eat _).branch
    (forward_skipSpaces.andThen fun _ => (advances_someText _ _).andThen fun _ => forward_pure _)
    (forward_pure _)

/-- Reads the header of a class after the word `class`. -/
def classHeader : Reader Scope := do
  skipSpaces
  if ← eatText ['<', '<'] then
    skipSpaces
    expectKeyword "self" .selfKeyword
    return { kind := .singletonClass, name := singletonName }
  else
    let name ← constantName
    let superclass ← superclass?
    return { kind := .classDef superclass, name }

theorem forward_classHeader : Forward classHeader :=
  forward_skipSpaces.andThen fun _ => (moves_eatText (by simp)).branch
    (forward_skipSpaces.andThen fun _ => (advances_expectKeyword _ _).andThen fun _ =>
      forward_pure _)
    (advances_constantName.andThen fun _ => forward_superclass?.andThen fun _ => forward_pure _)

/-- Reads the `end` of a method, on the line of its header or after it. `start` is where the name
    begins. The result is the comment after the header. -/
def methodEnd (start : Position) : Reader (Option Remark) := do
  skipSpaces
  if ← eat ';' then
    skipSpaces
    expectKeyword "end" .endKeyword
    return none
  else
    let stop ← here
    let remark ← finishLine
    skipBlanks
    if ← eatKeyword "end" then return remark
    else fail (.missingEnd .methodBody) (start.spanTo stop)

theorem forward_methodEnd (start : Position) : Forward (methodEnd start) :=
  forward_skipSpaces.andThen fun _ => (moves_eat _).branch
    (forward_skipSpaces.andThen fun _ => (advances_expectKeyword _ _).andThen fun _ =>
      forward_pure _)
    (forward_here.andThen fun _ => forward_finishLine.andThen fun _ =>
      forward_skipBlanks.andThen fun _ => (moves_eatKeyword _).branch (forward_pure _)
        (moves_fail _ _ _))

/-- Does the character end the name of a method? -/
def endsMethodName (c : Char) : Bool :=
  Text.isBlank c || c = '(' || c = ';' || c = '#'

/-- Reads the parameters of a method, if it has any. -/
def methodParamList : Reader (List Param) := do
  let paren ← here
  if ← eat '(' then list methodParams paren.offset else return []

theorem forward_methodParamList : Forward methodParamList :=
  forward_here.andThen fun _ => (moves_eat _).branch (forward_list _ _) (forward_pure _)

/-- Reads a method after the word `def`. -/
def method (visibility : Visibility) : Reader Statement := do
  skipSpaces
  let singleton ← eatText ['s', 'e', 'l', 'f', '.']
  let start ← here
  let name ← readWhile fun c => !endsMethodName c
  if name.isEmpty then unexpected .methodName
  else
    let params ← methodParamList
    let remark ← methodEnd start
    return .leaf
      (.method { Method.ofTypes (String.ofList name) singleton params none with visibility })
      remark.toList

theorem forward_method (visibility : Visibility) : Forward (method visibility) :=
  forward_skipSpaces.andThen fun _ => (moves_eatText (by simp)).andThen fun _ =>
    forward_here.andThen fun _ => (forward_readWhile _).andThen fun _ => .ite
      (moves_unexpected _ _)
      (forward_methodParamList.andThen fun _ => (forward_methodEnd _).andThen fun _ =>
        forward_pure _)

/-- Reads attributes after the word that declares them. -/
def attributes (visibility : Visibility) (access : Access) : Reader Statement := do
  let args ← callArgs
  if args.isEmpty then unexpected .attributeName
  else return .leaf (.attr { access, names := args.map Text.symbolName, visibility }) []

theorem forward_attributes (visibility : Visibility) (access : Access) :
    Forward (attributes visibility access) :=
  forward_callArgs.andThen fun _ => .ite (moves_unexpected _ _) (forward_pure _)

/-- Reads a call statement after the called word. -/
def callStatement (callee : Callee) : Reader Statement := do
  let call ← callOf callee
  return .leaf (.call call) []

theorem forward_callStatement (callee : Callee) : Forward (callStatement callee) :=
  (forward_callOf _).andThen fun _ => forward_pure _

/-- Reads what follows a visibility: a method, attributes or the arguments of a marker. -/
def afterVisibility (visibility : Visibility) : Reader Statement := do
  skipSpaces
  match ← word? fun word _ => match Keyword.ofWord? (String.ofList word) with
    | some .defWord => some none
    | some (.attrWord access) => some (some access)
    | _ => none with
  | some none => method visibility
  | some (some access) => attributes visibility access
  | none =>
    let args ← callArgs
    return .leaf (.call { callee := .visibility visibility, args }) []

theorem forward_afterVisibility (visibility : Visibility) :
    Forward (afterVisibility visibility) := by
  refine forward_skipSpaces.andThen fun _ => (moves_word? _).andThen fun next => ?_
  match next with
  | some none => exact forward_method _
  | some (some _) => exact forward_attributes _ _
  | none => exact forward_callArgs.andThen fun _ => forward_pure _

/-- Reads the statement that a keyword begins. -/
def keywordStatement : Keyword → Reader Statement
  | .moduleWord => do
    skipSpaces
    let name ← constantName
    return .header { kind := .moduleDef, name }
  | .classWord => do
    let scope ← classHeader
    return .header scope
  | .defWord => method .pub
  | .sigWord => do
    let (sig, remark) ← sig
    return .sig sig remark.toList
  | .visibility level => afterVisibility level
  | .attrWord access => attributes .pub access
  | .call callee => callStatement callee

theorem forward_keywordStatement (keyword : Keyword) : Forward (keywordStatement keyword) := by
  cases keyword with
  | moduleWord =>
    exact forward_skipSpaces.andThen fun _ => advances_constantName.andThen fun _ => forward_pure _
  | classWord => exact forward_classHeader.andThen fun _ => forward_pure _
  | defWord => exact forward_method _
  | sigWord => exact forward_sig.andThen fun _ => forward_pure _
  | visibility level => exact forward_afterVisibility _
  | attrWord access => exact forward_attributes _ _
  | call callee => exact forward_callStatement _

/-- Reads `type_member` or `type_template`; the result says whether it is a template. -/
def typeMember? : Reader (Option Bool) :=
  word? fun word _ => match String.ofList word with
    | "type_member" => some false
    | "type_template" => some true
    | _ => none

/-- Reads a constant, with its value if it has one, or a type member. -/
def constant : Reader Statement := do
  let name ← constantName
  skipSpaces
  if ← atText ['=', '='] then return .leaf (.const { name }) []
  else if ← eat '=' then
    skipSpaces
    match ← typeMember? with
    | some template => callStatement (.typeMember name template)
    | none =>
      let value ← someText (fun c => c = '\n' || c = '#') .value
      return .leaf (.const { name, value }) []
  else return .leaf (.const { name }) []

theorem advances_constant : Advances constant :=
  advances_constantName.start fun _ => forward_skipSpaces.andThen fun _ =>
    (forward_look _).andThen fun _ => .ite (forward_pure _) <| (moves_eat _).branch
      (forward_skipSpaces.andThen fun _ => (moves_word? _).option (fun _ => forward_callStatement _)
        ((advances_someText _ _).andThen fun _ => forward_pure _))
      (forward_pure _)

/-- Reads the rest of a call to a word without a fixed form. A bare `name!` is a helper. -/
def otherCall (name : String) : Reader Statement := do
  if ← eat '!' then
    skipSpaces
    if ← atLineEnd then return .leaf (.call { callee := .helper name }) []
    else callStatement (.other (name ++ "!"))
  else if ← eat '?' then callStatement (.other (name ++ "?"))
  else callStatement (.other name)

theorem forward_otherCall (name : String) : Forward (otherCall name) :=
  (moves_eat _).branch
    (forward_skipSpaces.andThen fun _ => (forward_look _).andThen fun _ => .ite (forward_pure _)
      (forward_callStatement _))
    ((moves_eat _).branch (forward_callStatement _) (forward_callStatement _))

/-- Is a constant path next? -/
def atConstant : Reader Bool :=
  look fun rest => startsUpper rest || [':', ':'].isPrefixOf rest

/-- Reads a statement that no keyword begins. -/
def plainStatement : Reader Statement := do
  match ← word? StructField.ofWord? with
  | some field => callStatement (.structField field)
  | none =>
    if ← atConstant then constant
    else match ← identifier? with
      | some name => otherCall name
      | none => unexpected .declaration

theorem advances_plainStatement : Advances plainStatement :=
  (moves_word? _).option (fun _ => forward_callStatement _) <|
    (forward_look _).andThen fun _ => .ite advances_constant <|
      moves_identifier?.option (fun _ => forward_otherCall _) (moves_unexpected _ _)

/-- Reads a statement. -/
def statement : Reader Statement := do
  match ← word? fun word _ => Keyword.ofWord? (String.ofList word) with
  | some keyword => keywordStatement keyword
  | none => plainStatement

theorem advances_statement : Advances statement :=
  (moves_word? _).option (fun _ => forward_keywordStatement _) advances_plainStatement

end Reader

end InterfaceFile
