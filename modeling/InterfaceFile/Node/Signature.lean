import InterfaceFile.Node.Comment

/-!
# Signatures

A signature is a chain of operations such as `params(a: Integer).returns(String)`. Types are raw
text: nothing here looks inside them.
-/

namespace InterfaceFile

/-- One `name: Type` entry of the parameters of a signature. -/
structure SigParam where
  name : String
  type : String
  comments : List Comment := []
  deriving DecidableEq, Repr, Inhabited

namespace SigParam

/-- The entry without its comments. -/
def stripped (p : SigParam) : SigParam :=
  { p with comments := [] }

/-- Changes every location in the entry. -/
def mapLoc (f : Location → Location) (p : SigParam) : SigParam :=
  { p with comments := p.comments.map (Comment.mapLoc f) }

end SigParam

/-- One operation of a signature. -/
inductive SigOp where
  | abstract
  | override
  | overridable
  /-- `type_parameters(:A, :B)`; the names have no colon. -/
  | typeParameters (names : List String)
  | params (entries : List SigParam)
  | returns (type : String)
  | void
  /-- `checked(:level)`; the level has no colon. -/
  | checked (level : String)
  deriving DecidableEq, Repr, Inhabited

namespace SigOp

/-- The parameter entries, of an operation that has them. -/
def params? : SigOp → Option (List SigParam)
  | params entries => some entries
  | _ => none

/-- Changes the parameter entries, of an operation that has them. -/
def mapParams (f : SigParam → SigParam) : SigOp → SigOp
  | params entries => params (entries.map f)
  | op => op

end SigOp

/-- A signature: its operations in the order in which they are written. -/
structure Sig where
  ops : List SigOp := []
  deriving DecidableEq, Repr, Inhabited

namespace Sig

/-- The entries of the first parameter operation. -/
def params? (s : Sig) : Option (List SigParam) :=
  s.ops.findSome? SigOp.params?

/-- Does an entry of the first parameter operation carry a comment? -/
def hasParamComments (s : Sig) : Bool :=
  (s.params?.getD []).any fun p => !p.comments.isEmpty

/-- The signature without the comments of its parameters. -/
def stripped (s : Sig) : Sig :=
  { ops := s.ops.map (SigOp.mapParams SigParam.stripped) }

/-- Changes every location in the signature. -/
def mapLoc (f : Location → Location) (s : Sig) : Sig :=
  { ops := s.ops.map (SigOp.mapParams (SigParam.mapLoc f)) }

end Sig

end InterfaceFile
