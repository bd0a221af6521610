import InterfaceFile.Node.Call
import InterfaceFile.Printer.Options

/-!
# Printed calls
-/

namespace InterfaceFile.Call

/-- The arguments after a called word, in parentheses or not; no arguments leave nothing. -/
def argsText (parenthesize : Bool) (args : List String) : String :=
  if args.isEmpty then ""
  else if parenthesize then "(" ++ Text.join ", " args ++ ")"
  else " " ++ Text.join ", " args

/-- A trailing block. -/
def blockText : Option String → String
  | some block => " \x7b " ++ block ++ " \x7d"
  | none => ""

/-- Are the arguments of a callee put in parentheses? -/
def parenthesized (o : PrintOptions) : Callee → Bool
  | .mixin _ => o.parenthesizeIncludes
  | .mixesInClassMethods => o.parenthesizeMixins
  | .typeMember _ _ => true
  | _ => false

/-- What stands before the called word. -/
def assignment : Callee → String
  | .typeMember name _ => name ++ " = "
  | _ => ""

/-- The call as it is printed in a body. -/
def render (o : PrintOptions) (c : Call) : String :=
  assignment c.callee ++ c.callee.word ++ argsText (parenthesized o c.callee) c.args ++
    blockText c.block

end InterfaceFile.Call
