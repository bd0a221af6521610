import InterfaceFile.Proofs.Tree.Bodies
import InterfaceFile.Proofs.Tree.Built

/-!
# Refused changes

A change of links works on the tree in place: it checks, takes a node out of one body, puts it into
another, and each of these steps may be refused when earlier steps have been done already. `Change`
keeps what was done before a refusal, so that it can be said what a refused call leaves behind. Which
calls are refused, and why, is said by the links alone: `Refuses` knows nothing of the order in which
a call looks at the tree.
-/

namespace InterfaceFile

/-! ## Changes in place -/

/-- A change of a tree in place. If it is refused, then what was done before stays done. -/
abbrev Change := ExceptT Fault (StateM Tree)

namespace Change

variable {α : Type}

/-- The outcome of a change, with the tree that it leaves. -/
def run (change : Change α) (t : Tree) : Except Fault α × Tree :=
  change t

/-- Stops if a check of the tree says so. -/
def check (test : Tree → Except Fault Unit) : Change Unit := do
  match test (← get) with
  | .ok _ => return
  | .error fault => throw fault

/-- Takes a node out of the body that lists it. -/
def detach (child : NodeId) : Change Unit := do
  let t ← get
  match t.parent child with
  | none => return
  | some p =>
    if child ∈ t.body p then
      modify fun t => t.setBody p ((t.body p).erase child)
      modify fun t => t.setParent child none
    else throw (.notInParentBody child p)

/-- Moves a node into the body of `parent`, before the statement at `index`. -/
def insert (child parent : NodeId) (index : Nat) : Change Unit := do
  check fun t => t.checkAttachable child parent
  detach child
  modify fun t => t.setBody parent
    ((t.body parent).insertIdx (min index (t.body parent).length) child)
  modify fun t => t.setParent child parent

/-- Moves a node to the end of the body of `parent`. -/
def attach (child parent : NodeId) : Change Unit := do
  let t ← get
  insert child parent (t.body parent).length

/-- Adds a node at the end of the body of `parent`. -/
def push (parent : NodeId) (node : Node) : Change Unit := do
  let t ← get
  modify fun t => (t.alloc node).1
  attach t.size parent

/-- Gives a scope a new body. -/
def replaceBody (scope : NodeId) (body : List NodeId) : Change Unit := do
  check fun t => if (t.node scope).isScope then .ok () else .error (.notAScope scope)
  check fun t => t.checkMembers scope [] body
  modify fun t => t.setParents (t.body scope) none
  modify fun t => t.setParents body scope
  modify fun t => t.setBody scope body

end Change

/-- The call, done in place. -/
def Edit.perform : Edit → Change Unit
  | alloc node => modify fun t => (t.alloc node).1
  | push parent node => Change.push parent node
  | attach child parent => Change.attach child parent
  | insert child parent index => Change.insert child parent index
  | detach child => Change.detach child
  | replaceBody scope body => Change.replaceBody scope body
  | setNode id node => modify fun t => t.setNode id node
  | setStrictness level => modify fun t => { t with strictness := level }

/-! ## Reasons -/

namespace Tree

/-- Why a node cannot be moved into the body of `parent`. -/
inductive RefusesMove (t : Tree) (child parent : NodeId) : Fault → Prop
  | root (top : child = root) : RefusesMove t child parent .rootAttach
  | leaf (lower : child ≠ Tree.root) (closed : (t.node parent).isScope = false) :
      RefusesMove t child parent (.notAScope parent)
  /-- The node is `parent` or one of the scopes around it. -/
  | cycle (lower : child ≠ Tree.root) (opens : (t.node parent).isScope = true)
      (around : Relation.ReflTransGen t.Encloses child parent) :
      RefusesMove t child parent (.cycle child parent)

/-- Why a node cannot stand in the new body of a scope after the nodes of `before`. -/
inductive RefusesMember (t : Tree) (scope : NodeId) (before : List NodeId) (id : NodeId) :
    Fault → Prop
  | again (listed : id ∈ before) : RefusesMember t scope before id (.foreignChild id scope)
  | elsewhere {other : NodeId} (link : t.parent id = some other) (different : other ≠ scope) :
      RefusesMember t scope before id (.foreignChild id scope)
  | root (fresh : id ∉ before) (top : id = root) : RefusesMember t scope before id .rootAttach
  | cycle (fresh : id ∉ before) (lower : id ≠ Tree.root) (nowhere : t.parent id = none)
      (around : Relation.ReflTransGen t.Encloses id scope) :
      RefusesMember t scope before id (.cycle id scope)

/-- Why nodes cannot stand in the new body of a scope after those of `before`: the first one that
    cannot decides. -/
inductive RefusesMembers (t : Tree) (scope : NodeId) : List NodeId → List NodeId → Fault → Prop
  | here {before rest : List NodeId} {id : NodeId} {fault : Fault}
      (refused : t.RefusesMember scope before id fault) :
      RefusesMembers t scope before (id :: rest) fault
  | later {before rest : List NodeId} {id : NodeId} {fault : Fault}
      (passes : ∀ fault, ¬ t.RefusesMember scope before id fault)
      (refused : RefusesMembers t scope (before ++ [id]) rest fault) :
      RefusesMembers t scope before (id :: rest) fault

/-- Why a scope cannot be given a body: it is none, or a node cannot stand there. -/
inductive RefusesBody (t : Tree) (scope : NodeId) (body : List NodeId) : Fault → Prop
  | leaf (closed : (t.node scope).isScope = false) : RefusesBody t scope body (.notAScope scope)
  | member {fault : Fault} (opens : (t.node scope).isScope = true)
      (refused : t.RefusesMembers scope [] body fault) : RefusesBody t scope body fault

end Tree

namespace Edit

/-- Why a call is refused. -/
def Refuses (t : Tree) : Edit → Fault → Prop
  | attach child parent, fault | insert child parent _, fault => t.RefusesMove child parent fault
  | push parent _, fault => (t.node parent).isScope = false ∧ fault = .notAScope parent
  | replaceBody scope body, fault => t.RefusesBody scope body fault
  | alloc _, _ | detach _, _ | setNode _ _, _ | setStrictness _, _ => False

/-- What a refused call leaves: the tree as it was. A refused `push` has added its node, which stands
    nowhere and holds nothing. -/
def residue (t : Tree) : Edit → Tree
  | push _ node => { t with slots := t.slots.push { node, parent := none, body := [] } }
  | _ => t

end Edit

/-! ## Runs in place -/

namespace Change

variable {α β : Type} {t : Tree}

theorem run_bind_ok {change : Change α} {next : α → Change β} {a : α} {t' : Tree}
    (first : change.run t = (.ok a, t')) : (change >>= next).run t = (next a).run t' := by
  show (ExceptT.bindCont next (change.run t).1 : StateM Tree _) (change.run t).2 = _
  rw [first]
  rfl

theorem run_bind_error {change : Change α} {next : α → Change β} {fault : Fault} {t' : Tree}
    (first : change.run t = (.error fault, t')) :
    (change >>= next).run t = (.error fault, t') := by
  show (ExceptT.bindCont next (change.run t).1 : StateM Tree _) (change.run t).2 = _
  rw [first]
  rfl

theorem run_check_ok {test : Tree → Except Fault Unit} (passed : test t = .ok ()) :
    (check test).run t = (.ok (), t) := by
  show (match test t with
    | .ok _ => (pure () : Change Unit)
    | .error fault => throw fault).run t = _
  rw [passed]
  rfl

theorem run_check_error {test : Tree → Except Fault Unit} {fault : Fault}
    (failed : test t = .error fault) : (check test).run t = (.error fault, t) := by
  show (match test t with
    | .ok _ => (pure () : Change Unit)
    | .error fault => throw fault).run t = _
  rw [failed]
  rfl

/-- The outcome of a call that changes nothing if it is refused. -/
def settled (t : Tree) : Except Fault Tree → Except Fault Unit × Tree
  | .ok t' => (.ok (), t')
  | .error fault => (.error fault, t)

theorem run_detach (t : Tree) (child : NodeId) :
    (detach child).run t = settled t (t.detach child) := by
  unfold Tree.detach
  show (match t.parent child with
    | none => (pure () : Change Unit)
    | some p => if child ∈ t.body p then _ else _).run t = _
  cases t.parent child with
  | none => rfl
  | some p =>
    by_cases listed : child ∈ t.body p
    · simp only [if_pos listed]
      rfl
    · simp only [if_neg listed]
      rfl

/-- Nothing is changed before the node is taken out, and nothing can be refused after that. -/
theorem run_insert (t : Tree) (child parent : NodeId) (index : Nat) :
    (insert child parent index).run t = settled t (t.insert child parent index) := by
  unfold Tree.insert
  cases check : t.checkAttachable child parent with
  | error fault => exact run_bind_error (run_check_error check)
  | ok _ =>
    refine (run_bind_ok (run_check_ok check)).trans ?_
    have taken := run_detach t child
    cases out : t.detach child with
    | error fault =>
      rw [out] at taken
      exact run_bind_error taken
    | ok t' =>
      rw [out] at taken
      exact run_bind_ok taken

theorem run_attach (t : Tree) (child parent : NodeId) :
    (attach child parent).run t = settled t (t.attach child parent) := by
  have looked : (get : Change Tree).run t = (.ok t, t) := rfl
  exact (run_bind_ok looked).trans (run_insert t child parent _)

theorem run_replaceBody (t : Tree) (scope : NodeId) (body : List NodeId) :
    (replaceBody scope body).run t = settled t (t.replaceBody scope body) := by
  unfold Tree.replaceBody
  cases opens : (t.node scope).isScope with
  | false => exact run_bind_error (run_check_error (by rw [opens]; rfl))
  | true =>
    refine (run_bind_ok (run_check_ok (by rw [opens]; rfl))).trans ?_
    cases check : t.checkMembers scope [] body with
    | error fault => exact run_bind_error (run_check_error check)
    | ok _ => exact run_bind_ok (run_check_ok check)

theorem run_push (t : Tree) (parent : NodeId) (node : Node) :
    (push parent node).run t =
      settled (t.alloc node).1 ((t.alloc node).1.attach t.size parent) := by
  have looked : (get : Change Tree).run t = (.ok t, t) := rfl
  have added : (modify fun t => (t.alloc node).1 : Change PUnit).run t = (.ok (), (t.alloc node).1) :=
    rfl
  exact (run_bind_ok looked).trans ((run_bind_ok added).trans (run_attach _ _ _))

/-- A call with one reason for every refusal, and none otherwise. -/
theorem settled_exact {outcome : Except Fault Tree} {refuses : Fault → Prop}
    (exact : ∀ fault, outcome = .error fault ↔ refuses fault) :
    (∀ fault, refuses fault → settled t outcome = (.error fault, t)) ∧
      ((∀ fault, ¬ refuses fault) → settled t outcome = (.ok (), Edit.settle t outcome)) := by
  constructor
  · intro fault refused
    rw [(exact fault).2 refused]
    rfl
  · intro none
    cases outcome with
    | ok t' => rfl
    | error fault => exact absurd ((exact fault).1 rfl) (none fault)

end Change

/-! ## Exact reasons -/

namespace Tree.Linked

variable {t : Tree} {child parent scope id : NodeId} {fault : Fault}

/-- The way up from a node meets the node and what stands around it. -/
theorem mem_lineage_iff (h : t.Linked) {x : NodeId} :
    x ∈ t.lineage id ↔ Relation.ReflTransGen t.Encloses x id := by
  constructor
  · intro member
    rcases (h.climbs_lineage id).mem_cases x member with rfl | above
    · exact .refl
    · exact above.to_reflTransGen
  · intro around
    induction around with
    | refl => exact h.mem_lineage_self x
    | tail _ link ih => exact h.mem_lineage_of_parent link ih

theorem checkAttachable_eq_error (h : t.Linked) :
    t.checkAttachable child parent = .error fault ↔ t.RefusesMove child parent fault := by
  constructor
  · intro refused
    unfold checkAttachable at refused
    split at refused
    · next top =>
      cases refused
      exact .root top
    · next lower =>
      split at refused
      · next closed =>
        cases refused
        exact .leaf lower (by simpa using closed)
      · next opens =>
        split at refused
        · next around =>
          cases refused
          exact .cycle lower (by simpa using opens) (h.mem_lineage_iff.1 around)
        · cases refused
  · intro reason
    unfold checkAttachable
    cases reason with
    | root top => rw [if_pos top]
    | leaf lower closed => rw [if_neg lower, if_pos (by simp [closed])]
    | cycle lower opens around =>
      rw [if_neg lower, if_neg (by simp [opens]), if_pos (h.mem_lineage_iff.2 around)]

/-- A move is refused for the reasons that the check knows, and the check comes first. -/
theorem insert_eq_error (h : t.Linked) (hc : child < t.size) (hp : parent < t.size) (index : Nat)
    (fault : Fault) :
    t.insert child parent index = .error fault ↔ t.RefusesMove child parent fault := by
  rw [← h.checkAttachable_eq_error]
  rcases h.insert_eq hc hp index with ⟨found, check, refused⟩ | ⟨check, t', done, -⟩
  · rw [check, refused, Except.error.injEq, Except.error.injEq]
  · rw [check, done]
    constructor <;> rintro ⟨⟩

/-- A new node is refused only by what is no scope. -/
theorem attach_alloc_eq_error (h : t.Linked) (hp : parent < t.size) (node : Node) (fault : Fault) :
    (t.alloc node).1.attach t.size parent = .error fault ↔
      (t.node parent).isScope = false ∧ fault = .notAScope parent := by
  have added := h.alloc node
  have fits : t.size < (t.alloc node).1.size := by simp
  have same : (t.alloc node).1.node parent = t.node parent := by
    rw [Tree.node, slot_alloc, if_neg hp.ne, Tree.node]
  have lower : t.size ≠ root := (Nat.ne_of_lt h.root_lt).symm
  have leaf : (t.alloc node).1.body t.size = [] :=
    (body_alloc node t.size).trans (body_of_size_le (Nat.le_refl _))
  have outside := added.not_mem_lineage_of_body leaf hp.ne
  rw [attach, added.insert_eq_error fits (Nat.lt_trans hp fits)]
  constructor
  · rintro (top | ⟨_, closed⟩ | ⟨_, _, around⟩)
    · exact absurd top lower
    · exact ⟨same ▸ closed, rfl⟩
    · exact absurd (added.mem_lineage_iff.2 around) outside
  · rintro ⟨closed, rfl⟩
    exact .leaf lower (same ▸ closed)

/-- What nothing holds is refused as a member if it is the root or stands around the scope. -/
theorem checkMember_eq_error_of_unattached (h : t.Linked) (opens : (t.node scope).isScope = true)
    {before : List NodeId} (fresh : id ∉ before) (link : t.parent id = none) :
    t.checkMember scope id = .error fault ↔ t.RefusesMember scope before id fault := by
  unfold checkMember
  rw [link, h.checkAttachable_eq_error]
  constructor
  · rintro (top | ⟨_, closed⟩ | ⟨lower, _, around⟩)
    · exact .root fresh top
    · rw [opens] at closed
      cases closed
    · exact .cycle fresh lower link around
  · rintro (listed | ⟨link', _⟩ | ⟨_, top⟩ | ⟨_, lower, _, around⟩)
    · exact absurd listed fresh
    · rw [link] at link'
      cases link'
    · exact .root top
    · exact .cycle lower opens around

/-- What a scope holds is refused as a member by the other scopes only. -/
theorem checkMember_eq_error_of_parent (h : t.Linked) {before : List NodeId} (fresh : id ∉ before)
    (link : t.parent id = some parent) :
    t.checkMember scope id = .error fault ↔ t.RefusesMember scope before id fault := by
  have lower : id ≠ root := by
    rintro rfl
    rw [h.root_parent] at link
    cases link
  unfold checkMember
  rw [link]
  show (if parent ≠ scope then Except.error (Fault.foreignChild id scope)
    else if id ∈ t.body scope then .ok () else .error (.notInParentBody id scope)) = _ ↔ _
  by_cases same : parent = scope
  · have listed : id ∈ t.body scope := (h.parent_iff id scope).1 (same ▸ link)
    rw [if_neg (not_not.2 same), if_pos listed]
    constructor
    · rintro ⟨⟩
    · rintro (again | ⟨link', different⟩ | ⟨_, top⟩ | ⟨_, _, nowhere, _⟩)
      · exact absurd again fresh
      · exact absurd ((Option.some.inj (link'.symm.trans link)).trans same) different
      · exact absurd top lower
      · rw [link] at nowhere
        cases nowhere
  · rw [if_pos same]
    constructor
    · rintro ⟨⟩
      exact .elsewhere link same
    · rintro (_ | _ | ⟨_, top⟩ | ⟨_, _, nowhere, _⟩)
      · rfl
      · rfl
      · exact absurd top lower
      · rw [link] at nowhere
        cases nowhere

/-- The check of one member of a new body, after those of `before`. -/
theorem checkMember_eq_error (h : t.Linked) (opens : (t.node scope).isScope = true)
    {before : List NodeId} (fresh : id ∉ before) :
    t.checkMember scope id = .error fault ↔ t.RefusesMember scope before id fault := by
  cases link : t.parent id with
  | none => exact h.checkMember_eq_error_of_unattached opens fresh link
  | some _ => exact h.checkMember_eq_error_of_parent fresh link

/-- The check of one member, and then of the others. -/
theorem checkMembers_cons {seen rest : List NodeId} :
    t.checkMembers scope seen (id :: rest) =
      (if id ∈ seen then .error (.foreignChild id scope) else t.checkMember scope id) >>=
        fun _ => t.checkMembers scope (id :: seen) rest := by
  rw [checkMembers]
  split <;> rfl

theorem checkNext_eq_error (h : t.Linked) (opens : (t.node scope).isScope = true)
    {seen before : List NodeId} (known : id ∈ seen ↔ id ∈ before) (fault : Fault) :
    (if id ∈ seen then .error (.foreignChild id scope) else t.checkMember scope id) =
      Except.error fault ↔ t.RefusesMember scope before id fault := by
  by_cases again : id ∈ before
  · rw [if_pos (known.2 again)]
    constructor
    · rintro ⟨⟩
      exact .again again
    · rintro (_ | _ | ⟨fresh, _⟩ | ⟨fresh, _⟩)
      · rfl
      · rfl
      · exact absurd again fresh
      · exact absurd again fresh
  · rw [if_neg fun listed => again (known.1 listed)]
    exact h.checkMember_eq_error opens again

theorem checkMembers_eq_error (h : t.Linked) (opens : (t.node scope).isScope = true)
    (ids : List NodeId) {seen before : List NodeId} (known : ∀ x, x ∈ seen ↔ x ∈ before)
    (fault : Fault) :
    t.checkMembers scope seen ids = .error fault ↔ t.RefusesMembers scope before ids fault := by
  induction ids generalizing seen before with
  | nil => constructor <;> rintro ⟨⟩
  | cons id rest ih =>
    have next := h.checkNext_eq_error opens (known id)
    have grown : ∀ x, x ∈ id :: seen ↔ x ∈ before ++ [id] := by
      intro x
      simp [known, or_comm]
    rw [checkMembers_cons]
    generalize (if id ∈ seen then .error (.foreignChild id scope)
      else t.checkMember scope id : Except Fault Unit) = check at next
    cases check with
    | error found =>
      constructor
      · rintro ⟨⟩
        exact .here ((next fault).1 rfl)
      · rintro (refused | ⟨passes, _⟩)
        · exact congrArg _ (Except.error.inj ((next fault).2 refused))
        · exact absurd ((next found).1 rfl) (passes found)
    | ok _ =>
      have passes : ∀ fault, ¬ t.RefusesMember scope before id fault := by
        intro fault refused
        cases (next fault).2 refused
      refine (ih grown).trans ⟨.later passes, ?_⟩
      rintro (refused | ⟨_, refused⟩)
      · exact absurd refused (passes fault)
      · exact refused

theorem replaceBody_eq_error (h : t.Linked) (scope : NodeId) (body : List NodeId) (fault : Fault) :
    t.replaceBody scope body = .error fault ↔ t.RefusesBody scope body fault := by
  unfold replaceBody
  cases opens : (t.node scope).isScope with
  | false =>
    constructor
    · rintro ⟨⟩
      exact .leaf opens
    · rintro (_ | ⟨opens', _⟩)
      · rfl
      · rw [opens] at opens'
        cases opens'
  | true =>
    have none : ∀ x : NodeId, x ∈ ([] : List NodeId) ↔ x ∈ ([] : List NodeId) := fun _ => Iff.rfl
    have members := h.checkMembers_eq_error opens body none fault
    constructor
    · intro refused
      cases check : t.checkMembers scope [] body with
      | ok _ =>
        rw [check] at refused
        cases refused
      | error found =>
        rw [check] at refused
        cases refused
        exact .member opens (members.1 check)
    · rintro (closed | ⟨_, refused⟩)
      · rw [opens] at closed
        cases closed
      · rw [members.2 refused]
        rfl

end Tree.Linked

namespace Edit

variable {t : Tree} {e : Edit}

/-- A call that is done in place is refused exactly if there is a reason, and does what the call
    does if there is none. -/
theorem perform_exact (h : t.Linked) (valid : e.Valid t) :
    (∀ fault, e.Refuses t fault → e.perform.run t = (.error fault, e.residue t)) ∧
      ((∀ fault, ¬ e.Refuses t fault) → e.perform.run t = (.ok (), e.apply t)) := by
  cases e with
  | alloc node | setNode id node | setStrictness level =>
    exact ⟨fun _ never => never.elim, fun _ => rfl⟩
  | insert child parent index =>
    have run := Change.run_insert t child parent index
    have exact := h.insert_eq_error valid.1 valid.2 index
    exact run ▸ Change.settled_exact exact
  | attach child parent =>
    have run := Change.run_attach t child parent
    have exact := h.insert_eq_error valid.1 valid.2 (t.body parent).length
    exact run ▸ Change.settled_exact exact
  | replaceBody scope body =>
    have run := Change.run_replaceBody t scope body
    exact run ▸ Change.settled_exact (h.replaceBody_eq_error scope body)
  | detach child =>
    obtain ⟨t', done, -⟩ := h.detach child
    refine ⟨fun _ never => never.elim, fun _ => ?_⟩
    refine (Change.run_detach t child).trans ?_
    show _ = (Except.ok (), settle t (t.detach child))
    rw [done]
    rfl
  | push parent node =>
    have run := Change.run_push t parent node
    obtain ⟨refused, done⟩ :=
      Change.settled_exact (t := (t.alloc node).1) (h.attach_alloc_eq_error valid node)
    refine ⟨fun fault reason => run.trans (refused fault reason), fun none => ?_⟩
    refine run.trans ((done none).trans ?_)
    show _ = (Except.ok (), (t.push parent node).1)
    rw [Tree.push]
    show _ = (Except.ok (), (match (t.alloc node).1.attach t.size parent with
      | .ok t' => (t', Except.ok t.size)
      | .error fault => ((t.alloc node).1, .error fault)).1)
    cases (t.alloc node).1.attach t.size parent <;> rfl

/-- No reason says that a node is not listed where it stands. -/
theorem not_refuses_notInParentBody (child parent : NodeId) :
    ¬ e.Refuses t (.notInParentBody child parent) := by
  have members : ∀ {scope before ids fault}, t.RefusesMembers scope before ids fault →
      ∃ before id, t.RefusesMember scope before id fault := by
    intro scope before ids fault refused
    induction refused with
    | here refused => exact ⟨_, _, refused⟩
    | later _ _ ih => exact ih
  intro refused
  cases e with
  | alloc | detach | setNode | setStrictness => exact refused
  | insert | attach => cases refused
  | push parent node => cases refused.2
  | replaceBody scope body =>
    cases refused with
    | member _ refused =>
      obtain ⟨before, id, reason⟩ := members refused
      cases reason

end Edit

/-- In every tree that callers can build a call fails exactly for the reasons given, with the fault
    that the reason names, and leaves the tree as it was, but that a refused `push` has added a node
    that stands nowhere. A call without such a reason succeeds. A node that is not listed where it
    says it stands is never met. -/
theorem faults_are_exact_and_atomic {t : Tree} (h : Built t) {e : Edit} (valid : e.Valid t) :
    (∀ fault, e.Refuses t fault → e.perform.run t = (.error fault, e.residue t)) ∧
      ((∀ fault, ¬ e.Refuses t fault) → e.perform.run t = (.ok (), e.apply t)) ∧
      ∀ child parent, (e.perform.run t).1 ≠ .error (.notInParentBody child parent) := by
  obtain ⟨refused, done⟩ := e.perform_exact h.linked valid
  refine ⟨refused, done, fun child parent orphan => ?_⟩
  by_cases reason : ∃ fault, e.Refuses t fault
  · obtain ⟨fault, reason⟩ := reason
    rw [refused fault reason] at orphan
    cases orphan
    exact Edit.not_refuses_notInParentBody child parent reason
  · rw [done fun fault given => reason ⟨fault, given⟩] at orphan
    cases orphan

/-- A class inside a module, and a constant that stands nowhere. -/
def looseConstant : Tree :=
  let t := (Edit.push 0 (.moduleDef "A")).apply .empty
  let t := (Edit.push 1 (.classDef "B" none)).apply t
  (Edit.alloc { decl := .const { name := "C" } }).apply t

theorem faults_are_exact_and_atomic_looseConstant :
    Built looseConstant ∧
      (Edit.insert 1 2 0).perform.run looseConstant = (.error (.cycle 1 2), looseConstant) ∧
      (Edit.replaceBody 0 [1, 2, 0]).perform.run looseConstant =
        (.error (.foreignChild 2 0), looseConstant) ∧
      (Edit.push 3 .blank).perform.run looseConstant =
        (.error (.notAScope 3), (Edit.alloc .blank).apply looseConstant) := by
  have one := Built.empty.edit (.push 0 (.moduleDef "A")) (by decide)
  have two := one.edit (.push 1 (.classDef "B" none)) (by decide)
  have built : Built looseConstant :=
    two.edit (.alloc { decl := .const { name := "C" } }) (by decide)
  have inside : looseConstant.parent 2 = some 1 := by decide
  have stays : ∀ fault, ¬ looseConstant.RefusesMember 0 [] 1 fault := by
    intro fault refused
    have check : looseConstant.checkMember 0 1 = .ok () := by decide
    cases check.symm.trans ((built.linked.checkMember_eq_error (by decide) (by simp)).2 refused)
  refine ⟨built, (faults_are_exact_and_atomic built (by decide)).1 _ ?_,
    (faults_are_exact_and_atomic built (by decide)).1 _ ?_,
    (faults_are_exact_and_atomic built (by decide)).1 _ ⟨by decide, rfl⟩⟩
  · exact .cycle (by decide) (by decide) (.single inside)
  · exact .member (by decide) (.later stays (.here (.elsewhere inside (by decide))))

end InterfaceFile
