import InterfaceFile.Reader.Arguments
import InterfaceFile.Reader.Parameters

/-!
# Signatures in the text

A signature is `sig { ... }` on one line or `sig do ... end` over several. Inside is a chain of
operations with dots between them.
-/

namespace InterfaceFile.Reader

/-- Reads the operation with the given name, of which only the name has been read. `start` is where
    the name begins. -/
def sigOp (start : Position) (name : String) : Reader SigOp :=
  match name with
  | "abstract" => return .abstract
  | "override" => return .override
  | "overridable" => return .overridable
  | "void" => return .void
  | "params" => do
    let paren ← here
    expect '(' .openParen
    let entries ← list sigParams paren.offset
    return .params entries
  | "returns" => do
    expect '(' .openParen
    let type ← rawText (· = ')')
    expect ')' .closeParen
    return .returns type
  | "type_parameters" => do
    let names ← parenArgs
    return .typeParameters (names.map Text.symbolName)
  | "checked" => do
    let args ← parenArgs
    return .checked ((args.head?.map Text.symbolName).getD "")
  | _ => do
    let stop ← here
    fail (.unknownSigOp name) (start.spanTo stop)

theorem forward_sigOp (start : Position) (name : String) : Forward (sigOp start name) := by
  unfold sigOp
  split
  · exact forward_pure _
  · exact forward_pure _
  · exact forward_pure _
  · exact forward_pure _
  · exact forward_here.andThen fun _ => (advances_expect _ _).andThen fun _ =>
      (forward_list _ _).andThen fun _ => forward_pure _
  · exact (advances_expect _ _).andThen fun _ => (moves_rawText _).andThen fun _ =>
      (advances_expect _ _).andThen fun _ => forward_pure _
  · exact advances_parenArgs.andThen fun _ => forward_pure _
  · exact advances_parenArgs.andThen fun _ => forward_pure _
  · exact forward_here.andThen fun _ => moves_fail _ _ _

/-- Reads one operation of a chain with the dot after it. `skip` skips the space around dots, `ops`
    are the operations before it, latest first. -/
def sigChainStep (skip : Reader Unit) (ops : List SigOp) : Reader (Turn (List SigOp) Sig) := do
  let start ← here
  match ← identifier? with
  | none => unexpected .sigOperation
  | some name =>
    let op ← sigOp start name
    skip
    if ← eat '.' then
      skip
      return .again (op :: ops)
    else return .done { ops := (op :: ops).reverse }

theorem advances_sigChainStep {skip : Reader Unit} (h : Forward skip) (ops : List SigOp) :
    Advances (sigChainStep skip ops) :=
  forward_here.andThen fun _ => moves_identifier?.option
    (fun _ => (forward_sigOp _ _).andThen fun _ => h.andThen fun _ =>
      (moves_eat _).branch (h.andThen fun _ => forward_pure _) (forward_pure _))
    (moves_unexpected _ _)

/-- Reads a chain of operations. -/
def sigChain (skip : Reader Unit) (h : Forward skip) : Reader Sig :=
  loop (sigChainStep skip) (fun ops => (advances_sigChainStep h ops).moves) []

theorem advances_sigChain (skip : Reader Unit) (h : Forward skip) : Advances (sigChain skip h) :=
  advances_loop (advances_sigChainStep h) _

/-- Reads a signature after the word `sig`. The second result is the comment after `do`. -/
def sig : Reader (Sig × Option Remark) := do
  skipSpaces
  if ← eat '{' then
    skipSpaces
    if ← eat '}' then return ({}, none)
    else
      let sig ← sigChain skipSpaces forward_skipSpaces
      skipSpaces
      expect '}' .closeBrace
      return (sig, none)
  else if ← eatKeyword "do" then
    let remark ← finishLine
    skipBlanks
    if ← eatKeyword "end" then return ({}, remark)
    else
      let sig ← sigChain skipBlanks forward_skipBlanks
      skipBlanks
      expectKeyword "end" .endKeyword
      return (sig, remark)
  else unexpected .openBraceOrDo

theorem forward_sig : Forward sig :=
  forward_skipSpaces.andThen fun _ => (moves_eat _).branch
    (forward_skipSpaces.andThen fun _ => (moves_eat _).branch (forward_pure _)
      ((advances_sigChain _ _).andThen fun _ => forward_skipSpaces.andThen fun _ =>
        (advances_expect _ _).andThen fun _ => forward_pure _))
    ((moves_eatKeyword _).branch
      (forward_finishLine.andThen fun _ => forward_skipBlanks.andThen fun _ =>
        (moves_eatKeyword _).branch (forward_pure _)
          ((advances_sigChain _ _).andThen fun _ => forward_skipBlanks.andThen fun _ =>
            (advances_expectKeyword _ _).andThen fun _ => forward_pure _))
      (moves_unexpected _ _))

end InterfaceFile.Reader
