import InterfaceFile.Proofs.RoundTrip.Printable
import InterfaceFile.Tree.Outline

/-!
# The raw texts of a tree

Types, default values, arguments, values and superclasses are taken over as they are written. So are
the names of attributes and of type parameters, which are arguments. `mapTexts` changes the raw texts
of a declaration and nothing else in it; `mapNodes` changes the nodes of a tree and none of its links.
-/

namespace InterfaceFile

/-! ## Raw texts -/

def ParamShape.mapTexts (f : String → String) : ParamShape → ParamShape
  | .optional value => .optional (f value)
  | .keywordOptional value => .keywordOptional (f value)
  | shape => shape

def Param.mapTexts (f : String → String) (p : Param) : Param :=
  { p with shape := p.shape.mapTexts f, type := p.type.map f }

def SigParam.mapTexts (f : String → String) (p : SigParam) : SigParam :=
  { p with type := f p.type }

def SigOp.mapTexts (f : String → String) : SigOp → SigOp
  | .typeParameters names => .typeParameters (names.map f)
  | .params entries => .params (entries.map (SigParam.mapTexts f))
  | .returns type => .returns (f type)
  | .checked level => .checked (f level)
  | op => op

def Sig.mapTexts (f : String → String) (s : Sig) : Sig :=
  { ops := s.ops.map (SigOp.mapTexts f) }

def Method.mapTexts (f : String → String) (m : Method) : Method :=
  { m with
    params := m.params.map (Param.mapTexts f)
    returnType := m.returnType.map f
    sigs := m.sigs.map (Sig.mapTexts f) }

def Attribute.mapTexts (f : String → String) (a : Attribute) : Attribute :=
  { a with names := a.names.map f, sigs := a.sigs.map (Sig.mapTexts f) }

def Call.mapTexts (f : String → String) (c : Call) : Call :=
  { c with args := c.args.map f, block := c.block.map f }

def Constant.mapTexts (f : String → String) (c : Constant) : Constant :=
  { c with value := c.value.map f }

def ScopeKind.mapTexts (f : String → String) : ScopeKind → ScopeKind
  | .classDef superclass => .classDef (superclass.map f)
  | kind => kind

def Scope.mapTexts (f : String → String) (s : Scope) : Scope :=
  { s with kind := s.kind.mapTexts f }

def Declaration.mapTexts (f : String → String) : Declaration → Declaration
  | .scope s => .scope (s.mapTexts f)
  | .const c => .const (c.mapTexts f)
  | .method m => .method (m.mapTexts f)
  | .attr a => .attr (a.mapTexts f)
  | .call c => .call (c.mapTexts f)
  | .blank => .blank

/-- Changes every raw text of a statement. Names that are words and comments stay as they are. -/
def Node.mapTexts (f : String → String) (n : Node) : Node :=
  { n with decl := n.decl.mapTexts f }

@[simp]
theorem ParamShape.mapTexts_id : ParamShape.mapTexts id = id := by
  funext shape
  cases shape <;> rfl

@[simp]
theorem Param.mapTexts_id : Param.mapTexts id = id := by
  funext p
  simp [mapTexts]

@[simp]
theorem SigParam.mapTexts_id : SigParam.mapTexts id = id := rfl

@[simp]
theorem SigOp.mapTexts_id : SigOp.mapTexts id = id := by
  funext op
  cases op <;> simp [mapTexts]

@[simp]
theorem Sig.mapTexts_id : Sig.mapTexts id = id := by
  funext s
  simp [mapTexts]

@[simp]
theorem ScopeKind.mapTexts_id : ScopeKind.mapTexts id = id := by
  funext kind
  cases kind <;> simp [mapTexts]

/-- Nothing changes if no text does. -/
@[simp]
theorem Declaration.mapTexts_id : Declaration.mapTexts id = id := by
  funext decl
  cases decl <;> simp [mapTexts, Scope.mapTexts, Constant.mapTexts, Method.mapTexts,
    Attribute.mapTexts, Call.mapTexts]

@[simp]
theorem Node.mapTexts_id : Node.mapTexts id = id := by
  funext n
  simp [mapTexts]

/-! ## Nodes -/

namespace Outline

variable (g : Node → Node)

mutual

/-- Changes the statement and those inside it. -/
def mapNodes (g : Node → Node) : Outline → Outline
  | mk node body => mk (g node) (mapNodesAll g body)

/-- Changes statements and those inside them. -/
def mapNodesAll (g : Node → Node) : List Outline → List Outline
  | [] => []
  | o :: rest => o.mapNodes g :: mapNodesAll g rest

end

theorem mapNodesAll_eq (os : List Outline) : mapNodesAll g os = os.map (mapNodes g) := by
  induction os with
  | nil => rfl
  | cons o rest ih => rw [mapNodesAll, ih, List.map_cons]

mutual

theorem unlocated_eq : ∀ o : Outline, o.unlocated = o.mapNodes Node.unlocated
  | mk node body => by rw [unlocated, mapNodes, unlocatedAll_eq body]

theorem unlocatedAll_eq : ∀ os : List Outline, unlocatedAll os = mapNodesAll Node.unlocated os
  | [] => rfl
  | o :: rest => by rw [unlocatedAll, mapNodesAll, unlocated_eq o, unlocatedAll_eq rest]

end

mutual

theorem size_mapNodes : ∀ o : Outline, (o.mapNodes g).size = o.size
  | mk node body => by rw [mapNodes, size, size, sizeAll_mapNodes body]

theorem sizeAll_mapNodes : ∀ os : List Outline, sizeAll (mapNodesAll g os) = sizeAll os
  | [] => rfl
  | o :: rest => by rw [mapNodesAll, sizeAll, sizeAll, size_mapNodes o, sizeAll_mapNodes rest]

end

theorem numbers_mapNodes (next : NodeId) (os : List Outline) :
    numbers next (mapNodesAll g os) = numbers next os := by
  induction os generalizing next with
  | nil => rfl
  | cons o rest ih => rw [mapNodesAll, numbers, numbers, size_mapNodes, ih]

end Outline

/-- Changes the node of a slot and none of its links. -/
def Slot.mapNode (g : Node → Node) (s : Slot) : Slot :=
  { s with node := g s.node }

namespace Outline

variable (g : Node → Node)

mutual

theorem slots_mapNodes : ∀ (o : Outline) (id : NodeId) (parent : Option NodeId),
    (o.mapNodes g).slots id parent = (o.slots id parent).map (Slot.mapNode g)
  | mk node body, id, parent => by
    rw [mapNodes, slots, slots, numbers_mapNodes, slotsAll_mapNodes body, List.map_cons, Slot.mapNode]

theorem slotsAll_mapNodes : ∀ (os : List Outline) (next : NodeId) (parent : Option NodeId),
    slotsAll next parent (mapNodesAll g os) = (slotsAll next parent os).map (Slot.mapNode g)
  | [], _, _ => rfl
  | o :: rest, next, parent => by
    rw [mapNodesAll, slotsAll, slotsAll, slots_mapNodes o, size_mapNodes, slotsAll_mapNodes rest,
      List.map_append]

end

end Outline

namespace Tree

/-- Changes the nodes of a tree and none of its links. -/
def mapNodes (g : Node → Node) (t : Tree) : Tree :=
  { t with slots := t.slots.map (Slot.mapNode g) }

/-- The nodes of a tree are those of the statements in it. -/
theorem mapNodes_ofOutlines {g : Node → Node} (root : g .root = .root) (strictness : Option String)
    (body : List Outline) :
    (ofOutlines strictness body).mapNodes g = ofOutlines strictness (Outline.mapNodesAll g body) := by
  have whole := Outline.slots_mapNodes g (.mk .root body) Tree.root none
  rw [Outline.mapNodes, root] at whole
  rw [mapNodes, ofOutlines, ofOutlines, whole, List.map_toArray]

end Tree

end InterfaceFile
