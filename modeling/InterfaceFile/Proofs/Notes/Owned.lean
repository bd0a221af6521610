import InterfaceFile.Proofs.Notes.NotedStatement
import InterfaceFile.Proofs.RoundTrip.ReadTree

/-!
# What a file accounts for

Comments and signatures wait for the declaration after them. At the end of every line what has been
noted is what the statements so far own together with what waits. So at the end of the file, where
nothing may wait, it is what the tree owns.
-/

namespace InterfaceFile

/-! ## Kinds of notes -/

namespace Note

/-- The comment that was read. -/
@[simp]
def comment? : Note → Option Comment
  | comment c => some c
  | _ => none

/-- What was read is a statement or the end of one. -/
@[simp]
def isStatement : Note → Bool
  | comment _ | blank => false
  | _ => true

end Note

/-! ## What a tree owns -/

/-- The comments of a node, of its parameters and of the parameters of its signatures. -/
def Node.ownedComments (n : Node) : List Comment :=
  n.comments ++ n.decl.comments

@[simp]
theorem Node.ownedComments_scope (s : Scope) (comments : List Comment) (loc : Option Location) :
    ownedComments { decl := .scope s, comments, loc } = comments :=
  List.append_nil _

namespace Outline

mutual

/-- The nodes of a statement, each before those inside it. -/
def nodes : Outline → List Node
  | mk node body => node :: nodesAll body

/-- The nodes of a list of statements. -/
def nodesAll : List Outline → List Node
  | [] => []
  | o :: rest => o.nodes ++ nodesAll rest

end

mutual

/-- What there is to note of a statement besides comments and empty lines, if the signatures of a
    declaration come right before it. -/
def notes : Outline → List Note
  | mk node body => match node.decl with
    | .scope s => .opens s :: notesAll body ++ [.closes]
    | .blank => notesAll body
    | d => d.sigs.map Note.sig ++ .leaf d.unsigned :: notesAll body

/-- What there is to note of a list of statements. -/
def notesAll : List Outline → List Note
  | [] => []
  | o :: rest => o.notes ++ notesAll rest

end

/-- All comments in a list of statements. -/
def commentsAll (os : List Outline) : List Comment :=
  (nodesAll os).flatMap Node.ownedComments

variable {os rest : List Outline} {node : Node} {body : List Outline}

@[simp]
theorem nodesAll_append : nodesAll (os ++ rest) = nodesAll os ++ nodesAll rest := by
  induction os with
  | nil => rfl
  | cons o os ih => simp [nodesAll, ih]

@[simp]
theorem notesAll_append : notesAll (os ++ rest) = notesAll os ++ notesAll rest := by
  induction os with
  | nil => rfl
  | cons o os ih => simp [notesAll, ih]

@[simp]
theorem notesAll_nil : notesAll [] = [] := by
  rw [notesAll]

@[simp]
theorem notesAll_singleton (o : Outline) : notesAll [o] = o.notes := by
  simp [notesAll]

@[simp]
theorem commentsAll_nil : commentsAll [] = [] := rfl

@[simp]
theorem commentsAll_append : commentsAll (os ++ rest) = commentsAll os ++ commentsAll rest := by
  simp [commentsAll]

@[simp]
theorem commentsAll_singleton :
    commentsAll [mk node body] = node.ownedComments ++ commentsAll body := by
  simp [commentsAll, nodesAll, nodes]

mutual

/-- The slots of a statement hold its nodes in order. -/
theorem map_node_slots (id : NodeId) (parent : Option NodeId) :
    ∀ o : Outline, (o.slots id parent).map Slot.node = o.nodes
  | mk node body => by
    rw [slots, nodes, List.map_cons, map_node_slotsAll]

theorem map_node_slotsAll (next : NodeId) (parent : Option NodeId) :
    ∀ os : List Outline, (slotsAll next parent os).map Slot.node = nodesAll os
  | [] => rfl
  | o :: rest => by
    rw [slotsAll, nodesAll, List.map_append, map_node_slots, map_node_slotsAll]

end

end Outline

theorem Declaration.params_withSigs (d : Declaration) (ss : List Sig) :
    (d.withSigs ss).params = d.params := by
  cases d <;> rfl

/-- A declaration that takes signatures gets nothing else. -/
theorem Declaration.owned_of_withSigs? {d d' : Declaration} {ss : List Sig} (none : d.sigs = [])
    (signed : d.withSigs? ss = some d') :
    d'.sigs = ss ∧ d'.params = d.params ∧ d'.unsigned = d ∧ d'.isLeaf = true := by
  obtain ⟨signable, rfl⟩ := withSigs?_eq_some signed
  rw [none, List.nil_append]
  refine ⟨sigs_withSigs signable ss, params_withSigs d ss, ?_, ?_⟩
  · rw [unsigned_withSigs, unsigned_of_sigs_eq_nil none]
  · exact isLeaf_of_isSignable (by rw [isSignable_withSigs, signable])

theorem Outline.notes_leaf {node : Node} {body : List Outline} (leaf : node.decl.isLeaf = true) :
    (mk node body).notes =
      node.decl.sigs.map Note.sig ++ .leaf node.decl.unsigned :: notesAll body := by
  rw [notes]
  cases h : node.decl with
  | scope s => simp [h, Declaration.isLeaf] at leaf
  | blank => simp [h, Declaration.isLeaf] at leaf
  | _ => rfl

/-! ## Files that are being read -/

namespace OpenScope

/-- The comments in and before open scopes, given innermost first, in reading order. -/
@[simp]
def commentsAll : List OpenScope → List Comment
  | [] => []
  | s :: outer => commentsAll outer ++ Outline.commentsAll s.earlier.reverse ++ s.comments

/-- What has been noted up to the headers of open scopes, given innermost first. -/
@[simp]
def notesAll : List OpenScope → List Note
  | [] => []
  | s :: outer => notesAll outer ++ Outline.notesAll s.earlier.reverse ++ [.opens s.scope]

end OpenScope

namespace OpenFile

/-- The signatures that wait in reading order. -/
@[simp]
def waitingSigs (f : OpenFile) : List Sig :=
  f.sigs.reverse.map Prod.fst

/-- The comments that the statements so far own and those that wait. -/
@[simp]
def comments (f : OpenFile) : List Comment :=
  OpenScope.commentsAll f.scopes ++ Outline.commentsAll f.statements.reverse ++
    f.waitingSigs.flatMap Sig.comments ++ f.waiting

/-- What there is to note of the statements so far and of the signatures that wait. -/
@[simp]
def notes (f : OpenFile) : List Note :=
  OpenScope.notesAll f.scopes ++ Outline.notesAll f.statements.reverse ++ f.waitingSigs.map Note.sig

/-- The notes are those of the file so far. -/
structure Accounts (f : OpenFile) (notes : List Note) : Prop where
  comments : (notes.filterMap Note.comment?).Perm f.comments
  statements : notes.filter Note.isStatement = f.notes

variable {f f' : OpenFile}

theorem Accounts.extend {before more : List Note} (h : f.Accounts before)
    (comments : (f.comments ++ more.filterMap Note.comment?).Perm f'.comments)
    (statements : f'.notes = f.notes ++ more.filter Note.isStatement) : f'.Accounts (before ++ more) where
  comments := by
    rw [List.filterMap_append]
    exact (h.comments.append_right _).trans comments
  statements := by
    rw [List.filter_append, h.statements, statements]

theorem sigs_of_danglingSig? (h : f.danglingSig? = none) : f.sigs = [] := by
  simpa [danglingSig?] using h

theorem nothing_of_dangling? (h : f.dangling? = none) : f.remarks = [] ∧ f.sigs = [] := by
  unfold dangling? at h
  cases last : f.remarks.getLast? with
  | some remark => simp [last] at h
  | none =>
    rw [last] at h
    exact ⟨List.getLast?_eq_none_iff.1 last, sigs_of_danglingSig? h⟩

end OpenFile

/-! ## What each line keeps -/

namespace Note

@[simp]
theorem comment?_comp_comment : comment? ∘ comment = some := rfl

@[simp]
theorem comment?_comp_comment_comp {α : Type} (g : α → Comment) :
    comment? ∘ comment ∘ g = some ∘ g := rfl

@[simp]
theorem filter_comment (cs : List Comment) : (cs.map comment).filter isStatement = [] := by
  simp

end Note

@[simp]
theorem Script.map_comment_toList (r : Option Remark) :
    r.toList.map Remark.comment = remarkComments r := rfl

namespace Script

open OpenFile (waiting await add)
open Reader (Turn TurnOf Gives gives_next gives_pure gives_fail)

variable {β : Type} {f : OpenFile} {before : List Note}

theorem quiet_strictness? : strictness?.Quiet := by
  refine ⟨trivial, fun _ => ⟨⟨quiet_bareRemark?, fun r => ?_⟩, trivial⟩⟩
  cases r with
  | none => trivial
  | some remark => simp only [Quiet, skipSpaces, implies_true, and_self]

theorem ensures_check {e : Option ReadError} {g : Unit → Reader β} {next : ∀ u, Script (g u)}
    {Q : β → List Note → Prop} (h : e = none → (next ()).Ensures Q) :
    (Script.bind (check e) next).Ensures Q := by
  cases e with
  | some e => exact fun c a d run => by cases run
  | none => exact ensures_next trivial fun _ => h rfl

/-- The result of a turn accounts for the notes. -/
def TurnAccounts (t : Turn OpenFile (List Outline)) (notes : List Note) : Prop :=
  match t with
  | .again f => f.Accounts notes
  | .done body => (notes.filterMap Note.comment?).Perm (Outline.commentsAll body) ∧
      notes.filter Note.isStatement = Outline.notesAll body

/-- Nothing waits at the end of the file. -/
theorem accounts_closeFile (h : f.Accounts before) :
    (closeFile f).Ensures fun t more => TurnAccounts t (before ++ more) := by
  obtain ⟨remarks, sigs, body, scopes⟩ := f
  cases scopes with
  | cons s outer => exact ensures_check fun _ => ensures_fail _ _
  | nil =>
    refine ensures_check fun nothing => ?_
    obtain ⟨rfl, rfl⟩ := OpenFile.nothing_of_dangling? nothing
    obtain ⟨comments, statements⟩ := h
    refine ensures_pure ⟨?_, ?_⟩
    · simpa [waiting] using comments
    · simpa using statements

theorem accounts_closeScope (h : f.Accounts before) (start : Position) :
    (closeScope f start).Ensures fun t more => TurnAccounts t (before ++ .closes :: more) := by
  obtain ⟨remarks, sigs, body, scopes⟩ := f
  cases scopes with
  | nil => exact ensures_check fun _ => ensures_next trivial fun _ => ensures_fail _ _
  | cons s outer =>
    refine ensures_check fun nothing => ensures_next trivial fun stop => records_finishLine.bind ?_
    obtain ⟨rfl, rfl⟩ := OpenFile.nothing_of_dangling? nothing
    rintro remark _ rfl
    refine ensures_next trivial fun loc => ensures_pure (h.extend ?_ ?_)
    · -- The comments of the scope now come after those inside it.
      rw [List.perm_iff_count]
      intro c
      simp [waiting, List.filterMap_cons]
      omega
    · simp [Outline.notes, List.filter_cons]

theorem accounts_openScope (h : f.Accounts before) (start : Position) (scope : Scope) :
    (openScope f start scope).Ensures fun f' more => f'.Accounts (before ++ .opens scope :: more) := by
  refine ensures_check fun nothing => ensures_next trivial fun _ => ?_
  have free := OpenFile.sigs_of_danglingSig? nothing
  refine ensures_branch trivial ?_ ?_
  · refine ensures_next trivial fun _ => ensures_noted (quiet_expectKeyword _ _) fun _ =>
      ensures_next trivial fun stop => ?_
    refine records_finishLine.bind ?_
    rintro remark _ rfl
    refine ensures_next trivial fun loc => ensures_pure (h.extend ?_ ?_)
    · simp [waiting, await, add, free, List.filterMap_cons]
    · simp [add, free, Outline.notes, List.filter_cons]
  · refine ensures_next trivial fun stop => records_finishLine.bind ?_
    rintro remark _ rfl
    refine .ite (fun _ => ensures_fail _ _) fun _ => ensures_pure (h.extend ?_ ?_)
    · simp [waiting, await, free, List.filterMap_cons]
    · simp [free, List.filter_cons]

theorem accounts_closeLeaf (h : f.Accounts before) (start : Position) {d : Declaration}
    (leaf : d.isLeaf = true) (unsigned : d.sigs = []) (remarks : List Remark) :
    (closeLeaf f start d remarks).Ensures fun f' more => f'.Accounts
      (before ++ ((Statement.leaf d remarks).comments.map Note.comment ++ .leaf d :: more)) := by
  refine ensures_next trivial fun stop => records_finishLine.bind ?_
  rintro remark _ rfl
  refine ensures_next trivial fun loc => ?_
  cases signed : d.withSigs? (f.sigs.reverse.map Prod.fst) with
  | some d' =>
    obtain ⟨sigs, params, same, leaf'⟩ := Declaration.owned_of_withSigs? unsigned signed
    refine ensures_pure (h.extend ?_ ?_)
    · rw [List.perm_iff_count]
      intro c
      simp [waiting, await, add, List.filterMap_cons, Statement.comments, Node.ownedComments,
        Declaration.comments, sigs, params, unsigned]
      omega
    · simp [add, Outline.notes_leaf, leaf', sigs, same, List.filter_cons]
  | none =>
    refine ensures_check fun nothing => ensures_pure (h.extend ?_ ?_)
    all_goals have free := OpenFile.sigs_of_danglingSig? nothing
    · rw [List.perm_iff_count]
      intro c
      simp [waiting, await, add, List.filterMap_cons, Statement.comments, Node.ownedComments,
        Declaration.comments, free]
      omega
    · simp [add, Outline.notes_leaf, leaf, unsigned, free, Declaration.unsigned_of_sigs_eq_nil,
        List.filter_cons]

theorem accounts_closeStatement (h : f.Accounts before) (start : Position) {s : Statement}
    (unsigned : s.Unsigned) : (closeStatement f start s).Ensures fun f' more =>
      f'.Accounts (before ++ (s.comments.map Note.comment ++ s.note :: more)) := by
  cases s with
  | leaf d remarks => exact accounts_closeLeaf h start unsigned.1 unsigned.2 remarks
  | header scope => exact accounts_openScope h start scope
  | sig s remarks =>
    refine ensures_next trivial fun stop => records_finishLine.bind ?_
    rintro remark _ rfl
    refine ensures_pure (h.extend ?_ ?_)
    · rw [List.perm_iff_count]
      intro c
      simp [waiting, await, List.filterMap_cons, Statement.comments, Statement.note]
      omega
    · simp [await, Statement.note, List.filter_cons]

/-- One more line. -/
theorem accounts_fileStep (h : f.Accounts before) :
    (fileStep f).Ensures fun t more => TurnAccounts t (before ++ more) := by
  refine ensures_next trivial fun _ => ensures_next trivial fun start => ensures_marked trivial ?_ ?_
  · refine ensures_next trivial fun loc => ensures_pure (h.extend ?_ ?_)
    · simp [waiting, Node.ownedComments, Node.blank, Declaration.comments, Declaration.params,
        Declaration.sigs, List.filterMap_cons]
    · simp [Outline.notes, Node.blank]
  refine records_remark?.bind ?_
  rintro remark _ rfl
  cases remark with
  | some remark =>
    refine ensures_next trivial fun _ => ensures_pure (h.extend ?_ ?_)
    · simp [waiting, await, remarkComments]
    · simp [await]
  | none =>
    refine ensures_branch trivial (accounts_closeFile h)
      (ensures_marked (quiet_eatKeyword _) (accounts_closeScope h start) ?_)
    have noted : (statement.noted fun s => [s.note]).Ensures fun s notes =>
        notes = s.comments.map Note.comment ++ [s.note] ∧ s.Unsigned :=
      .noted (records_statement.mono fun s _ holds => ⟨congrArg (· ++ [s.note]) holds.1, holds.2⟩)
    refine noted.bind ?_
    rintro s _ ⟨rfl, unsigned⟩
    refine (accounts_closeStatement h start unsigned).bind ?_
    intro f' more accounts
    refine ensures_pure (show f'.Accounts _ from ?_)
    simpa [remarkComments] using accounts

/-- A file accounts for all that has been noted. -/
theorem accounts_file : file.Ensures fun t notes => ∃ level body, t = .ofOutlines level body ∧
    (notes.filterMap Note.comment?).Perm (Outline.commentsAll body) ∧
    notes.filter Note.isStatement = Outline.notesAll body := by
  refine ensures_next quiet_strictness? fun level => ?_
  have start : ({} : OpenFile).Accounts [] := ⟨.rfl, rfl⟩
  refine (ensures_loop (Q := fun body notes => TurnAccounts (.done body) notes)
    (fun f before h => ?_) start).bind ?_
  · refine (accounts_fileStep h).mono ?_
    rintro (f' | body) more accounts
    · exact accounts
    · exact accounts
  · intro body notes accounts
    refine ensures_pure ⟨level, body, rfl, ?_⟩
    rwa [List.append_nil]

end Script

namespace Tree

variable {source : String} {file : Option String} {t : Tree} {notes : List Note}

theorem parseNoting_of_parse (h : parse source file = .ok t) :
    ∃ notes, parseNoting source file = .ok (t, notes) := by
  rw [parseNoting, h]
  exact ⟨_, rfl⟩

theorem accounts_parseNoting (h : parseNoting source file = .ok (t, notes)) :
    ∃ level body, t = .ofOutlines level body ∧
      (notes.filterMap Note.comment?).Perm (Outline.commentsAll body) ∧
      notes.filter Note.isStatement = Outline.notesAll body := by
  cases read : parse source file with
  | error e =>
    rw [parseNoting, read] at h
    cases h
  | ok t' =>
    rw [parseNoting, read] at h
    cases h
    obtain ⟨d, run⟩ := Reader.run_eq_ok.1 read
    exact Script.accounts_file _ _ d run

end Tree

end InterfaceFile
