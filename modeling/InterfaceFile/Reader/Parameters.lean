import InterfaceFile.Node.Method
import InterfaceFile.Reader.RawText
import InterfaceFile.Reader.Remark

/-!
# Parameter lists

A parameter list stands in parentheses, may run over several lines and may hold comments, each of
which belongs to the entry before it. The lists of methods and of signatures differ only in their
entries.
-/

namespace InterfaceFile

/-- Does the character end a default value or a type in a list? -/
def endsEntry (c : Char) : Bool :=
  c = ',' || c = '\n' || c = '#'

/-- A kind of list entry. -/
structure EntryKind (α : Type) where
  read : Reader α
  /-- Adds a comment after the comments of an entry. -/
  addComment : Comment → α → α
  advances : read.Advances

/-- A list that is being read. -/
structure OpenList (α : Type) where
  /-- The entries, latest first. -/
  entries : List α := []
  /-- Has a comma to come before the next entry? -/
  needsComma : Bool := false

namespace Reader

variable {α : Type}

/-- Reads the next part of a list: its end, a comment, a comma or an entry. `start` is the offset
    of the opening parenthesis. -/
def listStep (kind : EntryKind α) (start : Nat) (l : OpenList α) :
    Reader (Turn (OpenList α) (List α)) := do
  skipBlanks
  if ← eat ')' then return .done l.entries.reverse
  else match ← remark? with
    | some remark => match l.entries with
      | last :: earlier =>
        return .again { l with entries := kind.addComment remark.comment last :: earlier }
      | [] => fail .danglingComment remark.span
    | none =>
      if ← atEnd then fail (.unclosed '(') (.delimiter start)
      else if l.needsComma then
        if ← eat ',' then return .again { l with needsComma := false }
        else unexpected .commaOrClose
      else
        let entry ← kind.read
        return .again { entries := entry :: l.entries, needsComma := true }

theorem moves_listStep (kind : EntryKind α) (start : Nat) (l : OpenList α) :
    Moves Turn.IsAgain (listStep kind start l) := by
  refine forward_skipBlanks.andThen fun _ => (moves_eat _).branch (forward_pure _) <|
    moves_remark?.option (fun remark => ?_) ?_
  · cases l.entries with
    | nil => exact moves_fail _ _ _
    | cons last earlier => exact forward_pure _
  · exact (forward_look _).andThen fun _ => .ite (moves_fail _ _ _) <| .ite
      ((moves_eat _).branch (forward_pure _) (moves_unexpected _ _))
      (kind.advances.start fun _ => forward_pure _)

/-- Reads a list whose opening parenthesis, at `start`, has been read. -/
def list (kind : EntryKind α) (start : Nat) : Reader (List α) :=
  loop (listStep kind start) (moves_listStep kind start) {}

theorem forward_list (kind : EntryKind α) (start : Nat) : Forward (list kind start) :=
  forward_loop _

/-- Reads the mark before a parameter that collects arguments. -/
def collector? : Reader (Option ParamShape) := do
  if ← eatText ['*', '*'] then return some .keywordRest
  else if ← eat '*' then return some .rest
  else if ← eat '&' then return some .block
  else return none

theorem moves_collector? : Moves (fun o => o.isSome = true) collector? :=
  (moves_eatText (by simp)).branch (forward_pure _) <| (moves_eat _).branch (forward_pure _) <|
    (moves_eat _).branch (forward_pure _) <| moves_pure (by simp)

/-- Reads what follows the name of a parameter without a mark. -/
def paramShape : Reader ParamShape := do
  if ← eat ':' then
    skipSpaces
    if ← look fun rest => rest.head?.all fun c => endsEntry c || c = ')' then return .keyword
    else
      let value ← rawText endsEntry
      return .keywordOptional value
  else
    skipSpaces
    if ← eat '=' then
      skipSpaces
      let value ← someText endsEntry .defaultValue
      return .optional value
    else return .required

theorem forward_paramShape : Forward paramShape :=
  (moves_eat _).branch
    (forward_skipSpaces.andThen fun _ => (forward_look _).andThen fun _ => .ite (forward_pure _)
      ((moves_rawText _).andThen fun _ => forward_pure _))
    (forward_skipSpaces.andThen fun _ => (moves_eat _).branch
      (forward_skipSpaces.andThen fun _ => (advances_someText _ _).andThen fun _ =>
        forward_pure _)
      (forward_pure _))

/-- Reads a method parameter. After a mark the name may be missing. -/
def param : Reader Param := do
  match ← collector? with
  | some shape =>
    let name ← identifier?
    return { name := name.getD "", shape }
  | none => match ← identifier? with
    | none => unexpected .parameterName
    | some name =>
      let shape ← paramShape
      return { name, shape }

theorem advances_param : Advances param :=
  moves_collector?.option (fun _ => moves_identifier?.andThen fun _ => forward_pure _) <|
    moves_identifier?.option (fun _ => forward_paramShape.andThen fun _ => forward_pure _)
      (moves_unexpected _ _)

/-- The parameters of methods. -/
def methodParams : EntryKind Param where
  read := param
  addComment comment p := { p with comments := p.comments ++ [comment] }
  advances := advances_param

/-- Reads a parameter of a signature. -/
def sigParam : Reader SigParam := do
  match ← identifier? with
  | none => unexpected .parameterName
  | some name =>
    expect ':' .colon
    skipSpaces
    let type ← someText endsEntry .type
    return { name, type }

theorem advances_sigParam : Advances sigParam :=
  moves_identifier?.option
    (fun _ => (advances_expect _ _).andThen fun _ => forward_skipSpaces.andThen fun _ =>
      (advances_someText _ _).andThen fun _ => forward_pure _)
    (moves_unexpected _ _)

/-- The parameters of signatures. -/
def sigParams : EntryKind SigParam where
  read := sigParam
  addComment comment p := { p with comments := p.comments ++ [comment] }
  advances := advances_sigParam

end Reader

end InterfaceFile
