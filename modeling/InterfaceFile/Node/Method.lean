import InterfaceFile.Node.Signature

/-!
# Methods and attributes

The two kinds of declaration that signatures belong to.
-/

namespace InterfaceFile

/-- Who may call a method. -/
inductive Visibility where
  /-- `public` -/
  | pub
  /-- `protected` -/
  | prot
  /-- `private` -/
  | priv
  deriving DecidableEq, Repr, Inhabited

/-- The keyword of a visibility. -/
def Visibility.keyword : Visibility → String
  | pub => "public"
  | prot => "protected"
  | priv => "private"

/-- The seven shapes of a method parameter. -/
inductive ParamShape where
  /-- `name` -/
  | required
  /-- `name = default` -/
  | optional (default : String)
  /-- `*name` -/
  | rest
  /-- `name:` -/
  | keyword
  /-- `name: default` -/
  | keywordOptional (default : String)
  /-- `**name` -/
  | keywordRest
  /-- `&name` -/
  | block
  deriving DecidableEq, Repr, Inhabited

/-- A method parameter. The type serves only to derive a signature. -/
structure Param where
  name : String
  shape : ParamShape := .required
  type : Option String := none
  comments : List Comment := []
  deriving DecidableEq, Repr, Inhabited

namespace Param

/-- The parameter without its comments. -/
def stripped (p : Param) : Param :=
  { p with comments := [] }

/-- Changes every location in the parameter. -/
def mapLoc (f : Location → Location) (p : Param) : Param :=
  { p with comments := p.comments.map (Comment.mapLoc f) }

/-- The signature entry of a parameter; a parameter without a type is untyped. -/
def sigParam (p : Param) : SigParam :=
  { name := p.name, type := p.type.getD "T.untyped" }

end Param

/-- The signature that the types of parameters and result amount to. -/
def Sig.ofTypes (params : List Param) (returnType : Option String) : Sig :=
  let result := match returnType with
    | some type => SigOp.returns type
    | none => SigOp.void
  { ops := if params.isEmpty then [result] else [.params (params.map Param.sigParam), result] }

/-- A method declaration. -/
structure Method where
  name : String
  /-- Is it declared as `self.name`? -/
  singleton : Bool := false
  visibility : Visibility := .pub
  params : List Param := []
  /-- The given type of the result; a missing type is not the same as `void`. -/
  returnType : Option String := none
  sigs : List Sig := []
  deriving DecidableEq, Repr, Inhabited

namespace Method

/-- A public method. If a parameter has a type, or the result has one, then the method gets the
    signature that these types amount to. -/
def ofTypes (name : String) (singleton : Bool) (params : List Param)
    (returnType : Option String) : Method :=
  let typed := returnType.isSome || params.any fun p => p.type.isSome
  { name, singleton, params, returnType,
    sigs := if typed then [Sig.ofTypes params returnType] else [] }

/-- The method without the comments of parameters and signatures. -/
def stripped (m : Method) : Method :=
  { m with params := m.params.map Param.stripped, sigs := m.sigs.map Sig.stripped }

/-- Changes every location in the method. -/
def mapLoc (f : Location → Location) (m : Method) : Method :=
  { m with params := m.params.map (Param.mapLoc f), sigs := m.sigs.map (Sig.mapLoc f) }

end Method

/-- What an attribute declaration gives access to. -/
inductive Access where
  | reader
  | writer
  | accessor
  deriving DecidableEq, Repr, Inhabited

/-- The word that declares attributes of this access. -/
def Access.keyword : Access → String
  | reader => "attr_reader"
  | writer => "attr_writer"
  | accessor => "attr_accessor"

/-- An attribute declaration; the names have no colon. -/
structure Attribute where
  access : Access
  names : List String
  visibility : Visibility := .pub
  sigs : List Sig := []
  deriving DecidableEq, Repr, Inhabited

namespace Attribute

/-- The attribute without the comments of its signatures. -/
def stripped (a : Attribute) : Attribute :=
  { a with sigs := a.sigs.map Sig.stripped }

/-- Changes every location in the attribute. -/
def mapLoc (f : Location → Location) (a : Attribute) : Attribute :=
  { a with sigs := a.sigs.map (Sig.mapLoc f) }

end Attribute

end InterfaceFile
