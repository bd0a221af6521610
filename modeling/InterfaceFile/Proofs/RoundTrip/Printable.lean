import InterfaceFile.Printer.File
import InterfaceFile.Proofs.Reader.CleanText
import InterfaceFile.Reader.File

/-!
# Printable trees

A tree is printable if its texts are such as the reader takes from a file: names are names, and raw
text stops where the printer stops it. What such a tree says when it is read back is its written
form. There every comment is one line, signatures have their printed order, and the types that only
served to derive signatures are gone.
-/

namespace InterfaceFile

open Reader (AllWord)

/-! ## Words and names -/

/-- A word that does not begin with a digit. -/
def IsName (s : String) : Prop :=
  AllWord s.toList ∧ isIdentifier s.toList = true

instance (s : String) : Decidable (IsName s) :=
  inferInstanceAs (Decidable (_ ∧ _))

/-- Is the text a list of words with `::` between them, each with a capital letter at its start?
    `start` says that a word begins here. -/
def isPathFrom : (start : Bool) → List Char → Bool
  | true, [] => false
  | true, c :: cs => c.isUpper && isPathFrom false cs
  | false, [] => true
  | false, ':' :: ':' :: cs => isPathFrom true cs
  | false, c :: cs => isWordChar c && isPathFrom false cs

/-- Is the text a constant path such as `A::B` or `::A`? -/
def isConstantPath (s : String) : Bool :=
  match s.toList with
  | ':' :: ':' :: cs => isPathFrom true cs
  | cs => isPathFrom true cs

/-- A word that begins a call and nothing else. -/
def IsCallWord (w : List Char) : Prop :=
  AllWord w ∧ isIdentifier w = true ∧ startsUpper w = false ∧
    Keyword.ofWord? (String.ofList w) = none ∧ w ≠ "end".toList

instance (w : List Char) : Decidable (IsCallWord w) :=
  inferInstanceAs (Decidable (_ ∧ _ ∧ _ ∧ _ ∧ _))

/-- A name that can be written as a symbol, with one colon before it. -/
def IsSymbol (stop : Char → Bool) (name : String) : Prop :=
  Stops (· = ':') name.toList ∧ Clean stop (":" ++ name)

instance (stop : Char → Bool) (name : String) : Decidable (IsSymbol stop name) :=
  inferInstanceAs (Decidable (_ ∧ _))

/-! ## What is printable -/

/-- No line of a comment ends with a carriage return. -/
def Comment.Printable (c : Comment) : Prop :=
  ∀ line ∈ c.lines, line.toList.getLast? ≠ some '\r'

instance (c : Comment) : Decidable c.Printable :=
  inferInstanceAs (Decidable (∀ line ∈ c.lines, line.toList.getLast? ≠ some '\r'))

/-- A shape of parameter with the name that it can have. -/
def ParamShape.Printable (name : String) : ParamShape → Prop
  | .required | .keyword => IsName name
  | .rest | .keywordRest | .block => name = "" ∨ IsName name
  | .optional value | .keywordOptional value => IsName name ∧ Clean endsEntry value

instance (name : String) (shape : ParamShape) : Decidable (shape.Printable name) :=
  match shape with
  | .required | .keyword => inferInstanceAs (Decidable (IsName name))
  | .rest | .keywordRest | .block => inferInstanceAs (Decidable (name = "" ∨ IsName name))
  | .optional value | .keywordOptional value =>
    inferInstanceAs (Decidable (IsName name ∧ Clean endsEntry value))

def Param.Printable (p : Param) : Prop :=
  p.shape.Printable p.name ∧ ∀ c ∈ p.comments, c.Printable

instance (p : Param) : Decidable p.Printable :=
  inferInstanceAs (Decidable (_ ∧ ∀ c ∈ p.comments, c.Printable))

def SigParam.Printable (p : SigParam) : Prop :=
  IsName p.name ∧ Clean endsEntry p.type ∧ ∀ c ∈ p.comments, c.Printable

instance (p : SigParam) : Decidable p.Printable :=
  inferInstanceAs (Decidable (_ ∧ _ ∧ ∀ c ∈ p.comments, c.Printable))

def SigOp.Printable : SigOp → Prop
  | .typeParameters names => ∀ name ∈ names, IsSymbol (· = ',') name
  | .params entries => ∀ p ∈ entries, p.Printable
  | .returns type => type = "" ∨ Clean (· = ')') type
  | .checked level => IsSymbol (· = ',') level
  | _ => True

instance (op : SigOp) : Decidable op.Printable :=
  match op with
  | .typeParameters names =>
    inferInstanceAs (Decidable (∀ name ∈ names, IsSymbol (· = ',') name))
  | .params entries => inferInstanceAs (Decidable (∀ p ∈ entries, p.Printable))
  | .returns type => inferInstanceAs (Decidable (type = "" ∨ Clean (· = ')') type))
  | .checked level => inferInstanceAs (Decidable (IsSymbol (· = ',') level))
  | .abstract | .override | .overridable | .void => inferInstanceAs (Decidable True)

/-- The entries of all parameter operations. -/
def Sig.entries (s : Sig) : List SigParam :=
  (s.ops.filterMap SigOp.params?).flatten

/-- The first parameter operation decides whether a signature is printed with comments. So if there
    are comments, then one of them has to be there. -/
def Sig.Printable (s : Sig) : Prop :=
  (∀ op ∈ s.ops, op.Printable) ∧
    (s.hasParamComments = true ∨ ∀ p ∈ s.entries, p.comments = [])

instance (s : Sig) : Decidable s.Printable :=
  inferInstanceAs (Decidable ((∀ op ∈ s.ops, op.Printable) ∧
    (s.hasParamComments = true ∨ ∀ p ∈ s.entries, p.comments = [])))

/-- The text before the name of a method of the class itself. -/
def selfDot : List Char :=
  ['s', 'e', 'l', 'f', '.']

def Method.Printable (m : Method) : Prop :=
  (m.name.toList ≠ [] ∧ (∀ c ∈ m.name.toList, Reader.endsMethodName c = false) ∧
      (selfDot <+: m.name.toList → m.singleton = true)) ∧
    (∀ p ∈ m.params, p.Printable) ∧ ∀ s ∈ m.sigs, s.Printable

instance (m : Method) : Decidable m.Printable :=
  have : Decidable (∀ c ∈ m.name.toList, Reader.endsMethodName c = false) := List.decidableBAll _ _
  inferInstanceAs (Decidable ((_ ∧ (∀ c ∈ m.name.toList, Reader.endsMethodName c = false) ∧
    (selfDot <+: m.name.toList → m.singleton = true)) ∧
      (∀ p ∈ m.params, p.Printable) ∧ ∀ s ∈ m.sigs, s.Printable))

def Attribute.Printable (a : Attribute) : Prop :=
  a.names ≠ [] ∧ (∀ name ∈ a.names, IsSymbol endsArgument name) ∧ ∀ s ∈ a.sigs, s.Printable

instance (a : Attribute) : Decidable a.Printable :=
  inferInstanceAs (Decidable (_ ∧ (∀ name ∈ a.names, IsSymbol endsArgument name) ∧
    ∀ s ∈ a.sigs, s.Printable))

/-- Does the character end the value of a constant? -/
def endsValue (c : Char) : Bool :=
  c = '\n' || c = '#'

/-- Does the character end a superclass? -/
def endsSuperclass (c : Char) : Bool :=
  c = '\n' || c = '#' || c = ';'

/-- The word that a text begins with. -/
def leadingWord (s : String) : String :=
  String.ofList (s.toList.takeWhile isWordChar)

/-- A value that is not read as a type member. -/
def IsValue (value : String) : Prop :=
  Clean endsValue value ∧ leadingWord value ≠ "type_member" ∧ leadingWord value ≠ "type_template"

instance (value : String) : Decidable (IsValue value) :=
  inferInstanceAs (Decidable (_ ∧ _ ∧ _))

def Constant.Printable (c : Constant) : Prop :=
  isConstantPath c.name = true ∧ ∀ value ∈ c.value, IsValue value

instance (c : Constant) : Decidable c.Printable :=
  inferInstanceAs (Decidable (_ ∧ ∀ value ∈ c.value, IsValue value))

def Scope.Printable (s : Scope) : Prop :=
  match s.kind with
  | .root => False
  | .moduleDef => isConstantPath s.name = true
  | .classDef superclass =>
    isConstantPath s.name = true ∧ ∀ name ∈ superclass, Clean endsSuperclass name
  | .singletonClass => s.name = singletonName

instance (s : Scope) : Decidable s.Printable :=
  match h : s.kind with
  | .root => isFalse (by simp [Scope.Printable, h])
  | .moduleDef => decidable_of_iff (isConstantPath s.name = true) (by simp [Scope.Printable, h])
  | .classDef superclass =>
    decidable_of_iff (isConstantPath s.name = true ∧ ∀ name ∈ superclass, Clean endsSuperclass name)
      (by simp [Scope.Printable, h])
  | .singletonClass => decidable_of_iff (s.name = singletonName) (by simp [Scope.Printable, h])

theorem Scope.Printable.kind_ne_root {s : Scope} (h : s.Printable) : s.kind ≠ .root := by
  intro file
  rw [Scope.Printable, file] at h
  exact h

/-- Arguments that are printed without parentheses. The first one must not begin with a parenthesis,
    which would be taken for the parenthesis around all of them. -/
def AreBareArgs (args : List String) : Prop :=
  (∀ a ∈ args, Clean endsArgument a) ∧ ∀ a ∈ args.head?, Stops (· = '(') a.toList

instance (args : List String) : Decidable (AreBareArgs args) :=
  inferInstanceAs (Decidable ((∀ a ∈ args, Clean endsArgument a) ∧
    ∀ a ∈ args.head?, Stops (· = '(') a.toList))

/-- Arguments that can be printed in parentheses or without them. -/
def ArgsFit (paren : Bool) (args : List String) : Prop :=
  if paren then ∀ a ∈ args, Clean (· = ',') a else AreBareArgs args

instance (paren : Bool) (args : List String) : Decidable (ArgsFit paren args) :=
  match paren with
  | true => inferInstanceAs (Decidable (∀ a ∈ args, Clean (· = ',') a))
  | false => inferInstanceAs (Decidable (AreBareArgs args))

/-- Does the word after a visibility begin a declaration? -/
def beginsDeclaration (word : String) : Bool :=
  match Keyword.ofWord? word with
  | some .defWord | some (.attrWord _) => true
  | _ => false

/-- What may stand after the word of a call without a fixed form. Without a mark it must not be a
    struct field, and a bare `name!` would be a helper. -/
def IsMark (args : List String) (block : Option String) (name : String) (mark : List Char) : Prop :=
  (mark = [] ∧ ((name = "const" ∨ name = "prop") → ∀ a ∈ args.head?, Stops (· = ':') a.toList)) ∨
    mark = ['?'] ∨ (mark = ['!'] ∧ (args ≠ [] ∨ block ≠ none))

instance (args : List String) (block : Option String) (name : String) (mark : List Char) :
    Decidable (IsMark args block name mark) :=
  inferInstanceAs (Decidable ((_ ∧ ((name = "const" ∨ name = "prop") →
    ∀ a ∈ args.head?, Stops (· = ':') a.toList)) ∨ _ ∨ (_ ∧ (_ ∨ _))))

/-- The called word is one, and what follows it does not make it something else. -/
def Callee.Printable (args : List String) (block : Option String) : Callee → Prop
  | .mixin _ | .mixesInClassMethods | .requiresAncestor => True
  | .visibility _ => block = none ∧ ∀ a ∈ args.head?, beginsDeclaration (leadingWord a) = false
  | .helper name => IsCallWord name.toList ∧ args = [] ∧ block = none
  | .typeMember name _ => isConstantPath name = true
  | .structField _ => args.head?.any fun a => a.toList.head? = some ':'
  | .other name => IsCallWord (name.toList.takeWhile isWordChar) ∧
      IsMark args block name (name.toList.dropWhile isWordChar)

instance (args : List String) (block : Option String) (callee : Callee) :
    Decidable (callee.Printable args block) :=
  match callee with
  | .mixin _ | .mixesInClassMethods | .requiresAncestor => inferInstanceAs (Decidable True)
  | .visibility _ => inferInstanceAs (Decidable (block = none ∧
      ∀ a ∈ args.head?, beginsDeclaration (leadingWord a) = false))
  | .helper name => inferInstanceAs (Decidable (IsCallWord name.toList ∧ args = [] ∧ block = none))
  | .typeMember name _ => inferInstanceAs (Decidable (isConstantPath name = true))
  | .structField _ => inferInstanceAs (Decidable (args.head?.any fun a => a.toList.head? = some ':'))
  | .other name => inferInstanceAs (Decidable (IsCallWord (name.toList.takeWhile isWordChar) ∧
      IsMark args block name (name.toList.dropWhile isWordChar)))

/-- A call that can be printed with the options, which say where arguments get parentheses. -/
def Call.Printable (o : PrintOptions) (c : Call) : Prop :=
  ArgsFit (Call.parenthesized o c.callee) c.args ∧ c.callee.Printable c.args c.block ∧
    ∀ b ∈ c.block, b = "" ∨ Clean (· = '}') b

instance (o : PrintOptions) (c : Call) : Decidable (c.Printable o) :=
  inferInstanceAs (Decidable (_ ∧ _ ∧ ∀ b ∈ c.block, b = "" ∨ Clean (· = '}') b))

def Declaration.Printable (o : PrintOptions) : Declaration → Prop
  | .scope s => s.Printable
  | .const c => c.Printable
  | .method m => m.Printable
  | .attr a => a.Printable
  | .call c => c.Printable o
  | .blank => True

instance (o : PrintOptions) (d : Declaration) : Decidable (d.Printable o) :=
  match d with
  | .scope s => inferInstanceAs (Decidable s.Printable)
  | .const c => inferInstanceAs (Decidable c.Printable)
  | .method m => inferInstanceAs (Decidable m.Printable)
  | .attr a => inferInstanceAs (Decidable a.Printable)
  | .call c => inferInstanceAs (Decidable (c.Printable o))
  | .blank => inferInstanceAs (Decidable True)

/-- An empty line has no comments: they would be read as comments of the next statement. -/
def Node.Printable (o : PrintOptions) (n : Node) : Prop :=
  n.decl.Printable o ∧ (∀ c ∈ n.comments, c.Printable) ∧ (n.isBlank = true → n.comments = [])

instance (o : PrintOptions) (n : Node) : Decidable (n.Printable o) :=
  inferInstanceAs (Decidable (_ ∧ (∀ c ∈ n.comments, c.Printable) ∧ (_ → _)))

namespace Outline

mutual

/-- Is a statement with `depth` scopes around it printable? Only scopes have bodies, and they are
    not nested too deep. An empty scope on one line is never too deep. -/
def printable (o : PrintOptions) (depth : Nat) : Outline → Bool
  | mk node body => decide (node.Printable o) &&
      if node.isScope then
        (depth < nestingLimit || body.isEmpty && !o.foldEmptyScopes) && printableAll o (depth + 1) body
      else body.isEmpty

/-- Are all statements of a body printable? -/
def printableAll (o : PrintOptions) (depth : Nat) : List Outline → Bool
  | [] => true
  | s :: rest => s.printable o depth && printableAll o depth rest

end

end Outline

/-- The lines of comments. -/
def commentLines (comments : List Comment) : List String :=
  comments.flatMap Comment.lines

/-- Would the first line of a body be read as the strictness of the file? -/
def beginsWithHeader (body : List Outline) : Bool :=
  body.head?.any fun o => (commentLines o.node.comments).head?.any fun line =>
    "typed:".toList.isPrefixOf line.toList

/-- A tree whose text, printed with the options, can be read back. -/
def Tree.Printable (o : PrintOptions) (t : Tree) : Prop :=
  Outline.printableAll o 0 (t.outline root).body = true ∧
    (∀ level ∈ o.strictness <|> t.strictness, '\n' ∉ level.toList) ∧
      ((o.strictness <|> t.strictness) = none → beginsWithHeader (t.outline root).body = false)

instance (o : PrintOptions) (t : Tree) : Decidable (t.Printable o) :=
  inferInstanceAs (Decidable (_ ∧ (∀ level ∈ o.strictness <|> t.strictness, '\n' ∉ level.toList) ∧
    (_ → _)))

/-! ## Written forms -/

/-- The comments as they are read back, one for each line. -/
def writtenComments (comments : List Comment) : List Comment :=
  (commentLines comments).map fun line => { text := line }

/-- The parameter as it is read back, without its type. -/
def Param.written (p : Param) : Param :=
  { name := p.name, shape := p.shape, comments := writtenComments p.comments }

def SigParam.written (p : SigParam) : SigParam :=
  { p with comments := writtenComments p.comments }

namespace Sig

/-- All type parameters in one operation. -/
def typeParametersOp (s : Sig) : List SigOp :=
  match s.ops.flatMap SigOp.typeNames with
  | [] => []
  | names => [.typeParameters names]

/-- All parameters in one operation. -/
def paramsOp (s : Sig) : List SigOp :=
  match s.allParams? with
  | none => []
  | some entries => [.params entries]

/-- The flags, the last result and the last check level. -/
def trailerOps (s : Sig) : List SigOp :=
  (s.ops.filter fun op => op.flag?.isSome) ++
    (s.ops.filter fun op => op.result?.isSome).getLast?.toList ++
      (s.ops.filter fun op => op.check?.isSome).getLast?.toList

/-- The operations in printed order. -/
def inOrder (s : Sig) : List SigOp :=
  s.typeParametersOp ++ s.paramsOp ++ s.trailerOps

def written (s : Sig) : Sig :=
  { ops := s.inOrder.map (SigOp.mapParams SigParam.written) }

end Sig

def Method.written (m : Method) : Method :=
  { m with params := m.params.map Param.written, returnType := none, sigs := m.sigs.map Sig.written }

def Attribute.written (a : Attribute) : Attribute :=
  { a with sigs := a.sigs.map Sig.written }

def Declaration.written : Declaration → Declaration
  | .method m => .method m.written
  | .attr a => .attr a.written
  | decl => decl

def Node.written (n : Node) : Node :=
  { decl := n.decl.written, comments := writtenComments n.comments }

mutual

/-- What a statement says when it is read back. -/
def Outline.written : Outline → Outline
  | .mk node body => .mk node.written (Outline.writtenAll body)

/-- What statements say when they are read back. -/
def Outline.writtenAll : List Outline → List Outline
  | [] => []
  | o :: rest => o.written :: Outline.writtenAll rest

end

/-! ## Locations aside -/

def Comment.unlocated (c : Comment) : Comment :=
  { text := c.text }

def Param.unlocated (p : Param) : Param :=
  { p with comments := p.comments.map Comment.unlocated }

def SigParam.unlocated (p : SigParam) : SigParam :=
  { p with comments := p.comments.map Comment.unlocated }

def Sig.unlocated (s : Sig) : Sig :=
  { ops := s.ops.map (SigOp.mapParams SigParam.unlocated) }

def Method.unlocated (m : Method) : Method :=
  { m with params := m.params.map Param.unlocated, sigs := m.sigs.map Sig.unlocated }

def Attribute.unlocated (a : Attribute) : Attribute :=
  { a with sigs := a.sigs.map Sig.unlocated }

def Declaration.unlocated : Declaration → Declaration
  | .method m => .method m.unlocated
  | .attr a => .attr a.unlocated
  | decl => decl

/-- The node without the locations in it. -/
def Node.unlocated (n : Node) : Node :=
  { decl := n.decl.unlocated, comments := n.comments.map Comment.unlocated }

mutual

/-- The statement without the locations in it. -/
def Outline.unlocated : Outline → Outline
  | .mk node body => .mk node.unlocated (Outline.unlocatedAll body)

/-- The statements without the locations in them. -/
def Outline.unlocatedAll : List Outline → List Outline
  | [] => []
  | o :: rest => o.unlocated :: Outline.unlocatedAll rest

end

end InterfaceFile
