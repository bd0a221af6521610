import InterfaceFile.Node.Basic
import InterfaceFile.Printer.Call
import InterfaceFile.Printer.Signature

/-!
# Printed statements without a body

Methods, attributes, constants and the headers of scopes.
-/

namespace InterfaceFile

/-- A parameter as it is printed in a method header. -/
def Param.render (p : Param) : String :=
  match p.shape with
  | .required => p.name
  | .optional value => p.name ++ " = " ++ value
  | .rest => "*" ++ p.name
  | .keyword => p.name ++ ":"
  | .keywordOptional value => p.name ++ ": " ++ value
  | .keywordRest => "**" ++ p.name
  | .block => "&" ++ p.name

namespace PrintOptions

/-- The visibility before a declaration; public ones have none. -/
def visibilityDoc (o : PrintOptions) : Visibility → Doc
  | .pub => .nil
  | level => .concat [.text (o.keyword level.keyword), .text " "]

/-- How an empty body ends, after its header. -/
def emptyEnd (o : PrintOptions) : List Doc :=
  [if o.foldEmptyScopes then .line else .text "; ", .text (o.keyword "end")]

/-- A parameter list with its parentheses. -/
def paramsDocs (o : PrintOptions) (params : List Param) : List Doc :=
  if params.isEmpty then []
  else if params.all fun p => p.comments.isEmpty then
    [.text ("(" ++ Text.join ", " (params.map Param.render) ++ ")")]
  else
    [.text "(",
      .nest o.indentWidth (.concat (o.entriesDocs (params.map fun p => (p.render, p.comments)))),
      .line, .text ")"]

/-- A method without its signatures. -/
def methodDoc (o : PrintOptions) (m : Method) : Doc :=
  .concat <| [o.visibilityDoc m.visibility, .text (o.keyword "def"), .text " "] ++
    (if m.singleton then [.text "self."] else []) ++ [.text (o.paint .name m.name)] ++
    o.paramsDocs m.params ++ o.emptyEnd

/-- An attribute without its signatures. -/
def attributeDoc (o : PrintOptions) (a : Attribute) : Doc :=
  .concat [o.visibilityDoc a.visibility, .text (o.keyword a.access.keyword), .text " ",
    .join (.text ", ") (a.names.map fun name => .text (":" ++ name))]

/-- Signatures, each with a line break. -/
def sigDocs (o : PrintOptions) (depth : Nat) (sigs : List Sig) : List Doc :=
  sigs.flatMap fun s => [s.doc o depth, .line]

/-- A constant. -/
def constantDoc (c : Constant) : Doc :=
  match c.value with
  | some value => .concat [.text c.name, .text " = ", .text value]
  | none => .text c.name

/-- The header of a scope; a whole file has none. -/
def headerDocs (o : PrintOptions) (s : Scope) : List Doc :=
  match s.kind with
  | .root => []
  | .moduleDef => [.text (o.keyword "module"), .text " ", .text (o.paint .name s.name)]
  | .classDef superclass =>
    [.text (o.keyword "class"), .text " ", .text (o.paint .name s.name)] ++
      match superclass with
      | some name => [.text " < ", .text name]
      | none => []
  | .singletonClass => [.text (o.keyword "class"), .text " << self"]

/-- The lines of a declaration that has no body of statements. -/
def leafDocs (o : PrintOptions) (depth : Nat) : Declaration → List Doc
  | .scope s => o.headerDocs s
  | .const c => [constantDoc c]
  | .method m => o.sigDocs depth m.sigs ++ [o.methodDoc m]
  | .attr a => o.sigDocs depth a.sigs ++ [o.attributeDoc a]
  | .call c => [.text (c.render o)]
  | .blank => []

end PrintOptions

end InterfaceFile
