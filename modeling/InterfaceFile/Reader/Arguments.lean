import InterfaceFile.Node.Call
import InterfaceFile.Reader.RawText

/-!
# Arguments of calls

Arguments stand in parentheses, where they may run over several lines, or bare up to the end of the
line. A block in braces may follow.
-/

namespace InterfaceFile

/-- Does the character end a bare argument? -/
def endsArgument (c : Char) : Bool :=
  c = ',' || c = '\n' || c = '#' || c = '{' || c = ';'

namespace Reader

/-- Reads one argument in parentheses with the comma or the parenthesis after it. `args` are the
    arguments before it, latest first. -/
def parenArgsStep (args : List String) : Reader (Turn (List String) (List String)) := do
  skipBlanks
  if ← eat ')' then return .done args.reverse
  else
    let arg ← someText (· = ',') .argument
    skipBlanks
    if ← eat ',' then return .again (arg :: args)
    else
      expect ')' .commaOrClose
      return .done (arg :: args).reverse

theorem advances_parenArgsStep (args : List String) : Advances (parenArgsStep args) :=
  forward_skipBlanks.andThen fun _ => (moves_eat _).branch (forward_pure _) <|
    (advances_someText _ _).start fun _ => forward_skipBlanks.andThen fun _ =>
      (moves_eat _).branch (forward_pure _) <|
        (advances_expect _ _).forward.andThen fun _ => forward_pure _

/-- Reads arguments in parentheses. -/
def parenArgs : Reader (List String) := do
  expect '(' .openParen
  loop parenArgsStep (fun args => (advances_parenArgsStep args).moves) []

/-- Reads one bare argument with the comma after it. `args` are the arguments before it, latest
    first. -/
def bareArgsStep (args : List String) : Reader (Turn (List String) (List String)) := do
  skipSpaces
  if ← look fun rest => rest.head?.all fun c => c = '\n' || c = '#' || c = '{' || c = ';' then
    return .done args.reverse
  else
    let arg ← someText endsArgument .argument
    if ← eat ',' then return .again (arg :: args) else return .done (arg :: args).reverse

theorem moves_bareArgsStep (args : List String) : Moves Turn.IsAgain (bareArgsStep args) :=
  forward_skipSpaces.andThen fun _ => (forward_look _).andThen fun _ => .ite
    (moves_pure id)
    ((advances_someText _ _).start fun _ => (moves_eat _).branch (forward_pure _) (forward_pure _))

/-- Reads the arguments of a call, if it has any. -/
def callArgs : Reader (List String) := do
  skipSpaces
  if ← atChar '(' then parenArgs else loop bareArgsStep moves_bareArgsStep []

/-- Reads the block of a call, if it has one. -/
def callBlock? : Reader (Option String) := do
  skipSpaces
  if ← eat '{' then
    let block ← rawText (· = '}')
    expect '}' .closeBrace
    return some block
  else return none

/-- Reads the arguments and the block of a call. -/
def callOf (callee : Callee) : Reader Call := do
  let args ← callArgs
  let block ← callBlock?
  return { callee, args, block }

theorem advances_parenArgs : Advances parenArgs :=
  (advances_expect _ _).start fun _ => forward_loop _

theorem forward_callArgs : Forward callArgs :=
  forward_skipSpaces.andThen fun _ => (forward_look _).andThen fun _ => .ite
    advances_parenArgs.forward (forward_loop _)

theorem forward_callBlock? : Forward callBlock? :=
  forward_skipSpaces.andThen fun _ => (moves_eat _).branch
    ((moves_rawText _).andThen fun _ => (advances_expect _ _).andThen fun _ => forward_pure _)
    (forward_pure _)

theorem forward_callOf (callee : Callee) : Forward (callOf callee) :=
  forward_callArgs.andThen fun _ => forward_callBlock?.andThen fun _ => forward_pure _

end Reader

end InterfaceFile
