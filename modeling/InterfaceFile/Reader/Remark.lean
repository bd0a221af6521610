import InterfaceFile.Node.Comment
import InterfaceFile.Reader.Word

/-!
# Comments in the text

A comment runs from `#` to the end of the line. One space after the `#` and carriage returns at the
end do not belong to its text.
-/

namespace InterfaceFile

/-- A comment that has been read, with its bytes. -/
structure Remark where
  comment : Comment
  span : Span
  deriving DecidableEq, Repr

namespace Reader

/-- Reads a comment if one comes next. -/
def remark? : Reader (Option Remark) := do
  let start ← here
  if ← eat '#' then
    let _ ← eat ' '
    let text ← readWhile fun c => c ≠ '\n'
    let stop ← here
    let loc ← locate start stop
    return some
      { comment := { text := String.ofList (Text.dropTrailing '\r' text), loc }
        span := start.spanTo stop }
  else return none

/-- Reads to the end of the line and past it. Only a comment may come before the end; it is the
    result. -/
def finishLine : Reader (Option Remark) := do
  skipSpaces
  let remark ← remark?
  if ← atEnd then return remark
  else if ← eat '\n' then return remark
  else unexpected .endOfLine

theorem moves_remark? : Moves (fun o => o.isSome = true) remark? :=
  forward_here.andThen fun _ => (moves_eat _).branch
    ((moves_eat _).andThen fun _ => (forward_readWhile _).andThen fun _ =>
      forward_here.andThen fun _ => (forward_locate _ _).andThen fun _ => forward_pure _)
    (moves_pure (by simp))

theorem forward_finishLine : Forward finishLine :=
  forward_skipSpaces.andThen fun _ => moves_remark?.andThen fun _ =>
    (forward_look _).andThen fun _ => .ite (forward_pure _)
      ((moves_eat _).branch (forward_pure _) (moves_unexpected _ _))

end Reader

end InterfaceFile
