import InterfaceFile.Node.Signature
import InterfaceFile.Printer.Entries

/-!
# Printed signatures

The operations of a signature are printed in a fixed order: type parameters, parameters, flags,
result, check level. Of several results or check levels the last one counts; type parameters and
parameters of several operations are put together. A signature takes one line,
`sig { params(a: Integer).void }`, unless a parameter carries a comment or the line would be too
long; then it is a block with one parameter a line.
-/

namespace InterfaceFile

namespace SigParam

/-- An entry as it is printed. -/
def render (p : SigParam) : String :=
  p.name ++ ": " ++ p.type

end SigParam

namespace SigOp

/-- The names of a type parameter operation. -/
def typeNames : SigOp → List String
  | typeParameters names => names
  | _ => []

/-- The flag that an operation sets. -/
def flag? : SigOp → Option String
  | abstract => some "abstract"
  | override => some "override"
  | overridable => some "overridable"
  | _ => none

/-- The result that an operation gives. -/
def result? : SigOp → Option String
  | returns type => some ("returns(" ++ type ++ ")")
  | void => some "void"
  | _ => none

/-- The check level that an operation gives. -/
def check? : SigOp → Option String
  | checked level => some ("checked(:" ++ level ++ ")")
  | _ => none

end SigOp

namespace Sig

/-- The printed type parameters. -/
def typeParametersText? (s : Sig) : Option String :=
  match s.ops.flatMap SigOp.typeNames with
  | [] => none
  | names => some ("type_parameters(" ++ Text.join ", " (names.map (":" ++ ·)) ++ ")")

/-- The entries of all parameter operations together. -/
def allParams? (s : Sig) : Option (List SigParam) :=
  match s.ops.filterMap SigOp.params? with
  | [] => none
  | lists => some lists.flatten

/-- The printed flags, result and check level. -/
def trailerText? (s : Sig) : Option String :=
  match s.ops.filterMap SigOp.flag? ++ (s.ops.filterMap SigOp.result?).getLast?.toList ++
      (s.ops.filterMap SigOp.check?).getLast?.toList with
  | [] => none
  | texts => some (Text.join "." texts)

/-- The printed parts of a signature on one line. -/
def chainTexts (s : Sig) : List String :=
  let params := s.allParams?.map fun entries =>
    "params(" ++ Text.join ", " (entries.map SigParam.render) ++ ")"
  [s.typeParametersText?, params, s.trailerText?].filterMap id

/-- The operations on one line. -/
def chainText (s : Sig) : String :=
  Text.join "." s.chainTexts

/-- The width of the line that a signature takes at a depth of nesting. -/
def lineWidth (o : PrintOptions) (depth : Nat) (s : Sig) : Nat :=
  depth * o.indentWidth + "sig \x7b  \x7d".length + s.chainText.length

/-- Is a signature printed on one line? -/
def onOneLine (o : PrintOptions) (depth : Nat) (s : Sig) : Bool :=
  !s.hasParamComments && match o.maxLineLength with
    | some limit => s.lineWidth o depth ≤ limit
    | none => true

/-- The inside of a signature block. -/
def blockBody (o : PrintOptions) (s : Sig) : Doc :=
  match s.allParams? with
  | none => .text s.chainText
  | some entries =>
    let opening := match s.typeParametersText? with
      | some before => before ++ ".params("
      | none => "params("
    let closing := match s.trailerText? with
      | some after => ")." ++ after
      | none => ")"
    .concat [.text opening,
      .nest o.indentWidth (.concat (o.entriesDocs (entries.map fun p => (p.render, p.comments)))),
      .line, .text closing]

/-- A signature as it is printed at a depth of nesting. -/
def doc (o : PrintOptions) (depth : Nat) (s : Sig) : Doc :=
  let word := Doc.text (o.paint .sig "sig")
  if s.chainTexts.isEmpty then
    if o.foldEmptyScopes then
      .concat [word, .text " ", .text (o.keyword "do"), .line, .text (o.keyword "end")]
    else .concat [word, .text " \x7b\x7d"]
  else if s.onOneLine o depth then
    .concat [word, .text " \x7b ", .text s.chainText, .text " \x7d"]
  else
    .concat [word, .text " ", .text (o.keyword "do"),
      .nest o.indentWidth (.concat [.line, s.blockBody o]), .line, .text (o.keyword "end")]

end Sig

end InterfaceFile
